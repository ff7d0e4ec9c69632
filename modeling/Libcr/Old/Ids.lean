import Libcr.Old.Faults

/-!
# The ids of the old scheduler

`Spawn` takes its ids from an id map of 32768 ids, and writes at the id into `coros_`, which
has 256 entries. The id map searches on from the last id and an id shares its bit with those
64, 128 or 192 away; the ids therefore grow, and what `Spawn` can hand out before it writes
outside of `coros_` depends on which coroutines are live.
-/

namespace Libcr

namespace Old

/-- The coroutine and the id of a `Spawn`. -/
def Obs.issued? : Obs → Option (CoPtr × Int)
  | .spawned p id => some (p, id)
  | _ => none

/-- The coroutines `Spawn` made, with their ids, in order. -/
def issued (log : List Obs) : List (CoPtr × Int) := log.filterMap Obs.issued?

theorem mem_issued_iff {log : List Obs} {p : CoPtr} {id : Int} :
    (p, id) ∈ issued log ↔ .spawned p id ∈ log := by
  rw [issued, List.mem_filterMap]
  constructor
  · rintro ⟨o, ho, hid⟩
    cases o with
    | spawned q id' =>
        obtain ⟨rfl, rfl⟩ := Prod.mk.inj (Option.some.inj hid)
        exact ho
    | _ => cases hid
  · exact fun ho => ⟨_, ho, rfl⟩

/-- The status of the coroutine `p` after one more entry. -/
def statusStep (p : CoPtr) (status : Status) : Obs → Status
  | .spawned q _ => if q = p then .ready else status
  | .resumed q => if q = p then .running else status
  | .left q => if q = p then .suspend else status
  | .finished q => if q = p then .dead else status
  | _ => status

/-- The status of the coroutine `p`, from what has happened to it last. -/
def lastStatus (p : CoPtr) (log : List Obs) : Status := log.foldl (statusStep p) .dead

theorem lastStatus_append (p : CoPtr) (l os : List Obs) :
    lastStatus p (l ++ os) = os.foldl (statusStep p) (lastStatus p l) :=
  List.foldl_append

/-- The status of a coroutine; one that was deleted or not made yet is dead. -/
def Sched.statusOf (s : Sched) (p : CoPtr) : Status :=
  ((s.coroutines p).map Coroutine.status).getD .dead

/-- What the log says about ids and statuses. -/
structure Issued (s : Sched) : Prop where
  order : (issued s.log).Pairwise fun a b => a.1 < b.1 ∧ a.2 < b.2
  bound : ∀ r ∈ issued s.log, r.1 < s.nextCo ∧ 0 ≤ r.2 ∧ r.2 ≤ s.idMap.lastId
  last : s.idMap.lastId = -1 ∨ ∃ r ∈ issued s.log, r.2 = s.idMap.lastId
  live : ∀ p co, s.coroutines p = some co → (p, co.id) ∈ issued s.log
  status : ∀ p, lastStatus p s.log = s.statusOf p

theorem issued_new : Issued Sched.new where
  order := List.Pairwise.nil
  bound := by simp [Sched.new, issued]
  last := Or.inl rfl
  live := by simp [Sched.new]
  status := fun _ => rfl

section Steps

variable {s t : Sched} {p : CoPtr} {r : Resumer} {co co' : Coroutine} {os : List Obs}

/-- A step that is no `Spawn` hands out no id, and shows what it does to the statuses. -/
structure Keeps (s t : Sched) : Prop where
  lastId : t.idMap.lastId = s.idMap.lastId
  nextCo : t.nextCo = s.nextCo
  ids : ∀ q co', t.coroutines q = some co' → ∃ co, s.coroutines q = some co ∧ co'.id = co.id
  shown : ∃ os, t.log = s.log ++ os ∧ (∀ o ∈ os, o.issued? = none) ∧
    ∀ q, t.statusOf q = os.foldl (statusStep q) (s.statusOf q)

theorem Keeps.trans {u : Sched} (h : Keeps s t) (h' : Keeps t u) : Keeps s u := by
  obtain ⟨os, hlog, hos, hstatus⟩ := h.shown
  obtain ⟨os', hlog', hos', hstatus'⟩ := h'.shown
  refine ⟨h'.lastId.trans h.lastId, h'.nextCo.trans h.nextCo, ?_, os ++ os', ?_, ?_, ?_⟩
  · intro q co₂ hq
    obtain ⟨co₁, hq₁, hid₁⟩ := h'.ids q co₂ hq
    obtain ⟨co, hq₀, hid₀⟩ := h.ids q co₁ hq₁
    exact ⟨co, hq₀, hid₁.trans hid₀⟩
  · rw [hlog', hlog, List.append_assoc]
  · rw [List.forall_mem_append]
    exact ⟨hos, hos'⟩
  · intro q
    rw [hstatus', hstatus, List.foldl_append]

/-- The entries are not about what happens to a coroutine. -/
def Silent (os : List Obs) : Prop :=
  ∀ o ∈ os, o.issued? = none ∧ ∀ q st, statusStep q st o = st

theorem Silent.foldl (h : Silent os) (q : CoPtr) (st : Status) :
    os.foldl (statusStep q) st = st := by
  induction os with
  | nil => rfl
  | cons o rest ih =>
      obtain ⟨ho, hrest⟩ := List.forall_mem_cons.mp h
      rw [List.foldl_cons, ho.2, ih hrest]

/-- The coroutines are as before. -/
theorem keeps_of_coroutines_eq (hlastId : t.idMap.lastId = s.idMap.lastId)
    (hnextCo : t.nextCo = s.nextCo) (hcos : t.coroutines = s.coroutines)
    (hlog : t.log = s.log ++ os) (hos : Silent os) : Keeps s t := by
  refine ⟨hlastId, hnextCo, fun q co' hq => ⟨co', hcos ▸ hq, rfl⟩, os, hlog,
    fun o ho => (hos o ho).1, fun q => ?_⟩
  rw [hos.foldl, Sched.statusOf, hcos, Sched.statusOf]

/-- A coroutine has moved. -/
theorem keeps_of_update (os : List Obs) (hlastId : t.idMap.lastId = s.idMap.lastId)
    (hnextCo : t.nextCo = s.nextCo) (hco : s.coroutines p = some co)
    (hcos : t.coroutines = Function.update s.coroutines p (some co')) (hid : co'.id = co.id)
    (hlog : t.log = s.log ++ os) (hos : ∀ o ∈ os, o.issued? = none)
    (hself : co'.status = os.foldl (statusStep p) co.status)
    (hothers : ∀ q, p ≠ q → ∀ st, os.foldl (statusStep q) st = st) : Keeps s t := by
  refine ⟨hlastId, hnextCo, ?_, os, hlog, hos, fun q => ?_⟩
  · rw [hcos]
    exact forall_update (P := fun q co₁ => ∃ co, s.coroutines q = some co ∧ co₁.id = co.id)
      ⟨co, hco, hid⟩ fun q co₁ _ hq => ⟨co₁, hq, rfl⟩
  · rw [Sched.statusOf, Sched.statusOf, hcos]
    by_cases hqp : q = p
    · subst hqp
      rw [Function.update_self, hco]
      exact hself
    · rw [Function.update_of_ne hqp, hothers q (Ne.symm hqp)]

theorem Sched.gone_keeps (s : Sched) (hco : s.coroutines p = some co) (next : IoNext) :
    Keeps s (s.gone p r co next) := by
  cases next with
  | wait call =>
      exact keeps_of_update [.left p] rfl rfl hco rfl rfl rfl (by simp [Obs.issued?])
        (by simp [statusStep]) (by simp +contextual [statusStep])
  | loop call =>
      exact keeps_of_update [] rfl rfl hco rfl rfl (List.append_nil _).symm (by simp) rfl
        fun _ _ _ => rfl
  | back call value =>
      exact keeps_of_update [.returned p call.kind call.len value] rfl rfl hco rfl rfl rfl
        (by simp [Obs.issued?]) rfl fun _ _ _ => rfl

theorem Sched.equipped_keeps (s : Sched) (coro : CoPtr) (kind : IoKind) (fd : Fd)
    (len : BitVec 64) : Keeps s (s.equipped coro kind fd len).1 := by
  have hsame := s.equipped_same coro kind fd len
  exact keeps_of_coroutines_eq (congrArg IdMap.lastId hsame.idMap) hsame.nextCo hsame.coroutines
    hsame.log (by simp [Silent, Obs.issued?, statusStep])

/-- What `Run` shows before it calls `Resume`. -/
theorem Resumes.keeps {a : Act} (hres : Resumes s a p r os) : Keeps s (s.emit os) := by
  refine keeps_of_coroutines_eq rfl rfl rfl rfl ?_
  cases hres with
  | run => simp [Silent, Obs.issued?, statusStep]
  | user => simp [Silent]

/-- `Spawn` hands out an id, and no other step does. -/
theorem Effect.keeps {a : Act} (he : Effect s a (.ok t)) :
    (∃ arg fn id : Nat, s.idMap.allocate.1 = id ∧ id < kCoroNum ∧ t = s.spawned arg fn id) ∨
      Keeps s t := by
  have hsilent : Silent [] := by simp [Silent]
  cases he with
  | @spawn arg fn id huser hid hlt => exact Or.inl ⟨arg, fn, id, hid, hlt, rfl⟩
  | @yield p r co hctl hmain hco hpc =>
      exact Or.inr (keeps_of_update [.left p] rfl rfl hco rfl rfl rfl
        (by simp [Obs.issued?]) (by simp [statusStep]) (by simp +contextual [statusStep]))
  | status =>
      exact Or.inr (keeps_of_coroutines_eq rfl rfl rfl (List.append_nil _).symm hsilent)
  | @ioFailed coro co kind fd len ctl huser hrunning hco hfd hfail =>
      refine Or.inr ((s.equipped_keeps coro kind fd len).trans ?_)
      exact keeps_of_coroutines_eq rfl rfl rfl rfl (by simp [Silent, Obs.issued?, statusStep])
  | @ioWait p r co kind fd len hctl hmain hco hpc hfd hnew =>
      have hadded : Keeps (s.equipped p kind fd len).1 (s.added p kind fd len) :=
        keeps_of_coroutines_eq rfl rfl rfl (List.append_nil _).symm hsilent
      have hco' : (s.added p kind fd len).coroutines p = some co :=
        (congrFun (s.equipped_same p kind fd len).coroutines p).trans hco
      have hgone : Keeps (s.added p kind fd len) (s.startedIo p r co kind fd len) :=
        (s.added p kind fd len).gone_keeps hco'
          (.wait { kind := kind, coro := p, fd := fd, len := len, ret := 0, retries := 0 })
      exact Or.inr (((s.equipped_keeps p kind fd len).trans hadded).trans hgone)
  | @turn p r co call ans hctl hmain hco hpc hfits =>
      have hemit : Keeps s (s.emit (call.turn ans).1) := by
        refine keeps_of_coroutines_eq rfl rfl rfl rfl fun o ho => ?_
        obtain ⟨n, rfl⟩ := call.turn_moved ans o ho
        simp [Obs.issued?, statusStep]
      exact Or.inr (hemit.trans ((s.emit (call.turn ans).1).gone_keeps hco _))
  | @close fd dup huser hfd =>
      exact Or.inr (keeps_of_coroutines_eq rfl rfl rfl (List.append_nil _).symm hsilent)
  | @ret p r co hctl hmain hco hpc =>
      refine Or.inr ⟨rfl, rfl, ?_, [.finished p], rfl, by simp [Obs.issued?], fun q => ?_⟩
      · exact fun q co₁ hq => ⟨co₁, (of_update_none hq).2, rfl⟩
      · by_cases hqp : q = p
        · subst hqp
          simp [Sched.statusOf, Sched.ended, statusStep]
        · simp [Sched.statusOf, Sched.ended, statusStep, hqp, Ne.symm hqp]
  | run huser =>
      refine Or.inr (keeps_of_coroutines_eq rfl rfl rfl rfl ?_)
      simp [Silent, Obs.issued?, statusStep]
  | resumeNull =>
      exact Or.inr (keeps_of_coroutines_eq rfl rfl rfl (List.append_nil _).symm hsilent)
  | @idle a p r os co hres hco hexec =>
      exact Or.inr (hres.keeps.trans
        (keeps_of_coroutines_eq rfl rfl rfl (List.append_nil _).symm hsilent))
  | @enter a p r os co hres hco hpc =>
      refine Or.inr (hres.keeps.trans (keeps_of_update [.resumed p, .called p co.fn co.arg]
        rfl rfl hco (Function.update_idem ..) rfl ?_ (by simp [Obs.issued?]) (by simp [statusStep])
        (by simp +contextual [statusStep])))
      simp [Sched.emit, Sched.setCo, Sched.resumed]
  | @rejoin a p r os co hres hco hpc =>
      exact Or.inr (hres.keeps.trans (keeps_of_update [.resumed p]
        rfl rfl hco (Function.update_idem ..) rfl rfl (by simp [Obs.issued?]) (by simp [statusStep])
        (by simp +contextual [statusStep])))
  | @wake a p r os co call hres hco hpc =>
      let unregistered : Sched :=
        { (s.emit os).resumed p co r with epoll := Function.update s.epoll call.fd none }
      have hresumed : Keeps (s.emit os) unregistered :=
        keeps_of_update [.resumed p] rfl rfl hco rfl rfl rfl (by simp [Obs.issued?])
          (by simp [statusStep]) (by simp +contextual [statusStep])
      have hco' : unregistered.coroutines p = some { co with status := .running } :=
        Function.update_self ..
      exact Or.inr ((hres.keeps.trans hresumed).trans (unregistered.gone_keeps hco' _))
  | @network events hctl hset hfine =>
      refine Or.inr (keeps_of_coroutines_eq rfl rfl rfl rfl ?_)
      simp [Silent, Obs.issued?, statusStep]
  | forget =>
      exact Or.inr (keeps_of_coroutines_eq rfl rfl rfl (List.append_nil _).symm hsilent)

theorem Issued.keeps (hi : Issued s) (h : Keeps s t) : Issued t := by
  obtain ⟨os, hlog, hos, hstatus⟩ := h.shown
  have hissued : issued t.log = issued s.log := by
    rw [hlog, issued, List.filterMap_append, List.filterMap_eq_nil_iff.mpr hos, List.append_nil,
      issued]
  constructor
  case order => exact hissued ▸ hi.order
  case bound =>
    rw [hissued, h.nextCo, h.lastId]
    exact hi.bound
  case last =>
    rw [hissued, h.lastId]
    exact hi.last
  case live =>
    intro q co' hq
    obtain ⟨co, hco, hid⟩ := h.ids q co' hq
    rw [hissued, hid]
    exact hi.live q co hco
  case status =>
    intro q
    rw [hlog, lastStatus_append, hi.status, hstatus]

theorem Issued.spawned (hi : Issued s) (h : Inv s) {arg fn id : Nat}
    (hid : s.idMap.allocate.1 = id) : Issued (s.spawned arg fn id) := by
  obtain ⟨o, hlast, -, ho, hlast'⟩ := h.table.allocate
  obtain rfl : o = id := Int.natCast_inj.mp (ho.symm.trans hid)
  have hissued : issued (s.spawned arg fn o).log = issued s.log ++ [(s.nextCo, (o : Int))] := by
    change issued (s.log ++ [.spawned s.nextCo o]) = _
    rw [issued, List.filterMap_append]
    rfl
  constructor
  case order =>
    rw [hissued, List.pairwise_append]
    refine ⟨hi.order, List.pairwise_singleton .., ?_⟩
    intro a ha b hb
    rw [List.mem_singleton.mp hb]
    obtain ⟨hco, -, hle⟩ := hi.bound a ha
    exact ⟨hco, hle.trans_lt hlast⟩
  case bound =>
    intro r hr
    change r.1 < s.nextCo + 1 ∧ 0 ≤ r.2 ∧ r.2 ≤ s.idMap.allocate.2.lastId
    rw [hlast']
    rw [hissued, List.mem_append, List.mem_singleton] at hr
    rcases hr with hr | rfl
    · obtain ⟨hco, hnonneg, hle⟩ := hi.bound r hr
      exact ⟨Nat.lt_succ_of_lt hco, hnonneg, by omega⟩
    · exact ⟨Nat.lt_succ_self _, by omega, le_rfl⟩
  case last =>
    right
    refine ⟨(s.nextCo, (o : Int)), ?_, hlast'.symm⟩
    rw [hissued]
    exact List.mem_append_right _ (List.mem_singleton_self _)
  case live =>
    rw [hissued]
    apply forall_update (s := s) (P := fun q co' =>
      (q, co'.id) ∈ issued s.log ++ [(s.nextCo, (o : Int))])
    · exact List.mem_append_right _ (List.mem_singleton_self _)
    · exact fun q co₁ _ hq => List.mem_append_left _ (hi.live q co₁ hq)
  case status =>
    intro q
    change lastStatus q (s.log ++ [.spawned s.nextCo o]) = _
    rw [lastStatus_append, hi.status]
    by_cases hq : q = s.nextCo
    · subst hq
      simp [Sched.statusOf, Sched.spawned, statusStep]
    · simp [Sched.statusOf, Sched.spawned, statusStep, hq, Ne.symm hq]

/-- The log is right about ids in every state. -/
theorem Sched.Reached.issued (h : s.Reached) : Issued s := by
  refine h.invariant issued_new ?_
  intro u a v hu hi _ hstep
  have hinv := Sched.Reached.inv hu
  obtain ⟨-, heffect | ⟨f, -, rfl⟩⟩ := hinv.step_cases hstep
  · rcases heffect.keeps with ⟨arg, fn, id, hid, -, rfl⟩ | hkeeps
    · exact hi.spawned hinv hid
    · exact hi.keeps hkeeps
  · exact ⟨hi.order, hi.bound, hi.last, hi.live, hi.status⟩

end Steps

/-- No coroutine has two ids, and no id two coroutines. -/
theorem Issued.eq_of_eq {s : Sched} (hi : Issued s) {a b : CoPtr × Int}
    (ha : a ∈ issued s.log) (hb : b ∈ issued s.log) :
    (a.1 = b.1 → a.2 = b.2) ∧ (a.2 = b.2 → a.1 = b.1) := by
  have hdiffer : (issued s.log).Pairwise fun a b => a.1 ≠ b.1 ∧ a.2 ≠ b.2 :=
    hi.order.imp fun hlt => ⟨hlt.1.ne, hlt.2.ne⟩
  have : Std.Symm fun a b : CoPtr × Int => a.1 ≠ b.1 ∧ a.2 ≠ b.2 :=
    ⟨fun _ _ hne => ⟨hne.1.symm, hne.2.symm⟩⟩
  by_cases hab : a = b
  · subst hab
    exact ⟨fun _ => rfl, fun _ => rfl⟩
  · obtain ⟨hptr, hid⟩ := hdiffer.forall ha hb hab
    exact ⟨fun heq => absurd heq hptr, fun heq => absurd heq hid⟩

section Limits

open IdMap

variable {s : Sched}

/-- The bit of an id below 256 is that of its remainder by 64. -/
theorem cell_eq_iff_of_lt {a b : Int} (ha : 0 ≤ a ∧ a < kCoroNum) (hb : 0 ≤ b ∧ b < kCoroNum) :
    cell a.toNat = cell b.toNat ↔ a % 64 = b % 64 := by
  have hkCoroNum : (kCoroNum : Int) = 256 := rfl
  rw [cell, cell, Prod.mk.injEq]
  omega

/-- At most 64 coroutines are live, as their ids have different bits of one word. -/
theorem Inv.live_le (h : Inv s) {ps : List CoPtr} (hnodup : ps.Nodup)
    (hps : ∀ p ∈ ps, (s.coroutines p).isSome = true) : ps.length ≤ 64 := by
  obtain ⟨live, hinv, hlive⟩ := h.table.live
  have hid : ∀ p ∈ ps, ∃ id, s.idOf p = some id ∧ id ∈ live ∧ 0 ≤ id ∧ id < kCoroNum := by
    intro p hp
    obtain ⟨co, hco⟩ := Option.isSome_iff_exists.mp (hps p hp)
    exact ⟨co.id, s.idOf_eq hco, (hlive _).mpr ⟨p, s.idOf_eq hco⟩, h.id_range hco⟩
  -- The bits of the coroutines are different, and there are 64 of them.
  let bit (p : CoPtr) : Nat × Nat := cell ((s.idOf p).getD 0).toNat
  have hbits : (ps.map bit).Nodup := by
    refine hnodup.map_on fun p hp q hq heq => ?_
    obtain ⟨idp, hidp, hlivep, -⟩ := hid p hp
    obtain ⟨idq, hidq, hliveq, -⟩ := hid q hq
    have hcell : cell idp.toNat = cell idq.toNat := by simpa [bit, hidp, hidq] using heq
    have hsame := hinv.eq_of_cell hlivep hliveq hcell
    exact h.table.inj hidp (hsame ▸ hidq)
  have hrange : ∀ c ∈ ps.map bit, c.1 < 1 ∧ c.2 < 64 := by
    rw [List.forall_mem_map]
    intro p hp
    obtain ⟨id, hidp, -, hnonneg, hlt⟩ := hid p hp
    have hkCoroNum : (kCoroNum : Int) = 256 := rfl
    simp only [bit, hidp, Option.getD_some, cell]
    omega
  simpa using IdUse.length_le_of_cells hbits hrange

/-- As long as `Spawn` has not written outside of `coros_`, there are at most 256 coroutines in
all. -/
theorem Issued.length_le (hi : Issued s) (h : Inv s) : (issued s.log).length ≤ kCoroNum := by
  have hlast := h.table.last
  have hrange : ∀ r ∈ issued s.log, 0 ≤ r.2 ∧ r.2 < kCoroNum := by
    intro r hr
    obtain ⟨-, hnonneg, hle⟩ := hi.bound r hr
    exact ⟨hnonneg, hle.trans_lt hlast.2⟩
  -- Different ids below 256.
  have hnodup : ((issued s.log).map fun r => r.2.toNat).Nodup := by
    rw [List.nodup_iff_pairwise_ne, List.pairwise_map]
    refine hi.order.imp_of_mem fun {a b} ha hb hlt => ?_
    have hnonneg := (hrange a ha).1
    omega
  have hsub : ((issued s.log).map fun r => r.2.toNat) ⊆ List.range kCoroNum := by
    intro n hn
    obtain ⟨r, hr, rfl⟩ := List.mem_map.mp hn
    obtain ⟨hnonneg, hlt⟩ := hrange r hr
    rw [List.mem_range]
    omega
  simpa using (hnodup.subperm hsub).length_le

/-- What a call of `Spawn` does: the id map never gives an error, but an id above all those
handed out before. If the id is below 256, `Spawn` returns it, and then there are at most 64
live coroutines, and 256 in all; otherwise `Spawn` writes outside of `coros_`. -/
theorem spawn_limits (h : s.Reached) (hfault : s.fault = none) (huser : s.inUser = true)
    (arg fn : Nat) :
    ∃ id : Nat, (∀ r ∈ issued s.log, r.2 < id) ∧
      (id < kCoroNum ∧ (∃ t, s.spawn arg fn = .ok (t, id) ∧
          (issued t.log).length ≤ kCoroNum ∧
          ∀ ps : List CoPtr, ps.Nodup → (∀ p ∈ ps, (t.coroutines p).isSome = true) →
            ps.length ≤ 64) ∨
        kCoroNum ≤ id ∧ s.spawn arg fn = .error (.coros id)) := by
  obtain ⟨id, hlast, -, hid, -⟩ := h.inv.table.allocate
  have hnonneg : ¬ (id : Int) < 0 := by omega
  refine ⟨id, fun r hr => (h.issued.bound r hr).2.2.trans_lt hlast, ?_⟩
  by_cases hlt : id < kCoroNum
  · have hspawn : s.spawn arg fn = .ok (s.spawned arg fn id, id) := by
      simp [Sched.spawn, hid, hnonneg, hlt, Sched.spawned, Sched.setCo, Sched.emit]
    have hstep : s.step (.spawn arg fn) = some (s.spawned arg fn id) := by
      simp [Sched.step, hfault, Sched.perform, huser, hspawn, Except.map]
    have hreached : (s.spawned arg fn id).Reached := h.snoc trivial hstep
    exact Or.inl ⟨hlt, _, hspawn, hreached.issued.length_le hreached.inv,
      fun ps => hreached.inv.live_le⟩
  · have hspawn : s.spawn arg fn = .error (.coros id) := by
      simp [Sched.spawn, hid, hnonneg, hlt]
    exact Or.inr ⟨Nat.le_of_not_lt hlt, hspawn⟩

/-- `main` has made two coroutines and makes a third one. -/
theorem spawn_limits_three :
    ∃ s : Sched, s.Reached ∧ issued s.log = [(1, 0), (2, 1)] ∧ ∃ id : Nat, 1 < id ∧
      (id < kCoroNum ∧ (∃ t, s.spawn 7 8 = .ok (t, id)) ∨
        kCoroNum ≤ id ∧ s.spawn 7 8 = .error (.coros id)) := by
  let acts : List Act := [.spawn 7 8, .spawn 9 10]
  obtain ⟨s, hs, hend⟩ := Option.map_eq_some_iff.mp (show
    (exec Sched.step Sched.new acts).map (fun s => (issued s.log, s.fault, s.inUser)) =
      some ([(1, 0), (2, 1)], none, true) by decide +kernel)
  simp only [Prod.mk.injEq] at hend
  obtain ⟨hissued, hfault, huser⟩ := hend
  have hreached : s.Reached := exec_reaches (fun _ _ _ => trivial) hs
  obtain ⟨id, habove, hspawn⟩ := spawn_limits hreached hfault huser 7 8
  have hone : (1 : Int) < id := habove (2, 1) (by simp [hissued])
  refine ⟨s, hreached, hissued, id, by omega, hspawn.imp_left ?_⟩
  rintro ⟨hlt, t, ht, -⟩
  exact ⟨hlt, t, ht⟩

/-- `Spawn` writes outside of `coros_` exactly when every id below 256 that comes after those
handed out has the remainder by 64 of a live coroutine's. -/
theorem spawn_overflows_iff (h : s.Reached) (huser : s.inUser = true) (arg fn : Nat) :
    (∃ f, s.perform (.spawn arg fn) = some (.error f)) ↔
      ∀ id : Int, (∀ r ∈ issued s.log, r.2 < id) → 0 ≤ id → id < kCoroNum →
        ∃ p co, s.coroutines p = some co ∧ co.id % 64 = id % 64 := by
  have hi := h.issued
  have hlast := h.inv.table.last
  obtain ⟨live, hinv, hlive⟩ := h.inv.table.live
  have hkCoroNum : (kCoroNum : Int) = 256 := rfl
  -- The ids after those handed out are those after the last one.
  have hafter : ∀ id : Int, 0 ≤ id → ((∀ r ∈ issued s.log, r.2 < id) ↔ s.idMap.lastId < id) := by
    intro id hnonneg
    constructor
    · intro hid
      rcases hi.last with hnone | ⟨r, hr, hr'⟩
      · omega
      · exact hr' ▸ hid r hr
    · exact fun hid r hr => (hi.bound r hr).2.2.trans_lt hid
  -- A bit is set when a live coroutine has it.
  have htaken : ∀ id : Int, 0 ≤ id → id < kCoroNum → (Taken s.idMap.page id.toNat ↔
      ∃ p co, s.coroutines p = some co ∧ co.id % 64 = id % 64) := by
    intro id hnonneg hlt
    rw [hinv.taken_iff]
    constructor
    · rintro ⟨id', hid', hcell⟩
      obtain ⟨p, hp⟩ := (hlive id').mp hid'
      obtain ⟨co, hco, rfl⟩ := Option.map_eq_some_iff.mp hp
      exact ⟨p, co, hco, (cell_eq_iff_of_lt (h.inv.id_range hco) ⟨hnonneg, hlt⟩).mp hcell⟩
    · rintro ⟨p, co, hco, hmod⟩
      exact ⟨co.id, (hlive _).mpr ⟨p, s.idOf_eq hco⟩,
        (cell_eq_iff_of_lt (h.inv.id_range hco) ⟨hnonneg, hlt⟩).mpr hmod⟩
  have hoffset : offsetOf (s.idMap.lastId + 1) = (s.idMap.lastId + 1).toNat :=
    offsetOf_of_range (by omega)
  obtain ⟨o, hlasto, -, ho, -⟩ := h.inv.table.allocate
  have hfails : (∃ f, s.perform (.spawn arg fn) = some (.error f)) ↔ kCoroNum ≤ o := by
    constructor
    · rintro ⟨f, hf⟩
      have hle := ((fails_iff_perform h.inv h.logged).mp hf).2.1
      omega
    · intro hle
      exact ⟨_, (fails_iff_perform h.inv h.logged).mpr ⟨huser, by omega, rfl⟩⟩
  rw [hfails]
  rcases s.idMap.allocate_cases hinv.nrFree_ne_zero with
    ⟨-, heq⟩ | ⟨o', hle, -, hclear, hbefore, heq⟩
  · rw [heq] at ho
    have hneg : (-1 : Int) = o := ho
    omega
  · have hoo : (o' : Int) = o := by rw [heq] at ho; exact ho
    obtain rfl : o' = o := Int.natCast_inj.mp hoo
    constructor
    · intro hout id hid hnonneg hlt
      have hgt := (hafter id hnonneg).mp hid
      exact (htaken id hnonneg hlt).mp (hbefore id.toNat (by omega) (by omega))
    · intro hall
      by_contra hlt
      apply hclear
      have := (htaken o' (by omega) (by omega)).mpr
        (hall o' ((hafter o' (by omega)).mpr hlasto) (by omega) (by omega))
      simpa using this

/-- With 64 live coroutines the next `Spawn` writes outside of `coros_`. -/
theorem spawn_overflows_iff_full :
    ∃ s : Sched, s.Reached ∧ (issued s.log).length = 64 ∧
      ∃ f, s.perform (.spawn 7 8) = some (.error f) := by
  let acts : List Act := List.replicate 64 (.spawn 7 8)
  obtain ⟨s, hs⟩ := Option.isSome_iff_exists.mp
    (show (exec Sched.step Sched.new acts).isSome by decide +kernel)
  have hend : (exec Sched.step Sched.new acts).map (fun s => (s.inUser, issued s.log,
      (List.range 64).map fun k => (s.coroutines (k + 1)).map Coroutine.id)) =
      some (true, (List.range 64).map fun k : Nat => (k + 1, (k : Int)),
        (List.range 64).map fun k : Nat => some (k : Int)) := by decide +kernel
  rw [hs] at hend
  simp only [Option.map_some, Option.some.injEq, Prod.mk.injEq] at hend
  obtain ⟨huser, hissued, hids⟩ := hend
  have hreached : s.Reached := exec_reaches (fun _ _ _ => trivial) hs
  refine ⟨s, hreached, by simp [hissued], (spawn_overflows_iff hreached huser 7 8).mpr ?_⟩
  intro id _ hnonneg _
  have hk : (id % 64).toNat < 64 := by omega
  have hget := congrArg (fun l => l[(id % 64).toNat]?) hids
  simp only [List.getElem?_map, List.getElem?_range hk, Option.map_some, Option.some.injEq] at hget
  obtain ⟨co, hco, hid⟩ := Option.map_eq_some_iff.mp hget
  exact ⟨_, co, hco, by omega⟩

end Limits

section History

variable {s : Sched} {p : CoPtr}

/-- An id stays that of its coroutine: `Status` of an id that `Spawn` returned is what has
happened last to the coroutine made then, whoever resumed it, also after its end, when the id is
free again. -/
theorem status_of_spawned (h : s.Reached) {id : Int} (hp : .spawned p id ∈ s.log) :
    s.status id = .ok (lastStatus p s.log) := by
  have hi := h.issued
  have hinv := h.inv
  have hmem : (p, id) ∈ issued s.log := mem_issued_iff.mpr hp
  obtain ⟨-, hnonneg, hle⟩ := hi.bound _ hmem
  have hcorosAt : s.corosAt id = .ok (s.coros id.toNat) :=
    if_pos ⟨hnonneg, hle.trans_lt hinv.table.last.2⟩
  rw [hi.status]
  cases hco : s.coroutines p with
  | none =>
      have hzero : s.coros id.toNat = 0 := by
        by_contra hne
        -- A live coroutine at this index would be `p`.
        have hmade := hinv.table.made _ hne
        rw [Int.toNat_of_nonneg hnonneg] at hmade
        obtain ⟨co, hco', hid⟩ := Option.map_eq_some_iff.mp hmade
        have hq := hid ▸ hi.live _ co hco'
        have hqp : s.coros id.toNat = p := (hi.eq_of_eq hq hmem).2 rfl
        rw [hqp, hco] at hco'
        cases hco'
      simp [Sched.status, hcorosAt, bind, Except.bind, hzero, pure, Except.pure, Sched.statusOf,
        hco]
  | some co =>
      obtain rfl : co.id = id := (hi.eq_of_eq (hi.live p co hco) hmem).1 rfl
      simp [Sched.status, hinv.corosAt_id hco, bind, Except.bind, hinv.ne_zero hco, pure,
        Except.pure, Sched.deref, hco, Sched.statusOf]

end History

/-- `main` resumes two coroutines: the first one ends, the second one makes a third one and
yields. The ids are 0, 1 and 2. -/
theorem status_of_spawned_three :
    ∃ s : Sched, s.Reached ∧ s.status 0 = .ok .dead ∧ s.status 1 = .ok .suspend ∧
      s.status 2 = .ok .ready := by
  let acts : List Act :=
    [.spawn 7 8, .spawn 9 10, .resume 0, .ret, .resume 1, .spawn 11 12, .yield]
  obtain ⟨s, hs, hend⟩ := Option.map_eq_some_iff.mp (show
    (exec Sched.step Sched.new acts).map (fun s => (issued s.log, lastStatus 1 s.log,
      lastStatus 2 s.log, lastStatus 3 s.log)) =
      some ([(1, 0), (2, 1), (3, 2)], .dead, .suspend, .ready) by decide +kernel)
  simp only [Prod.mk.injEq] at hend
  obtain ⟨hissued, h1, h2, h3⟩ := hend
  have hreached : s.Reached := exec_reaches (fun _ _ _ => trivial) hs
  refine ⟨s, hreached, ?_, ?_, ?_⟩
  · exact h1 ▸ status_of_spawned hreached (mem_issued_iff.mp (by simp [hissued]))
  · exact h2 ▸ status_of_spawned hreached (mem_issued_iff.mp (by simp [hissued]))
  · exact h3 ▸ status_of_spawned hreached (mem_issued_iff.mp (by simp [hissued]))

end Old

end Libcr
