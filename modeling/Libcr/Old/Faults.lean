import Libcr.Old.Turns

/-!
# What can go wrong in the old scheduler

The accesses that leave a vector or follow a pointer to a deleted object and the switches to
contexts that have been left, exactly: `Spawn` with an id from 256 on, `Status` or `Resume` of
an id outside of `coros_`, a call that needs a running coroutine while `running_` names none or
while the `Resume` that saved `main_` has returned, a descriptor outside of `socks_`, `Run` at a
coroutine that has ended, and an event for a descriptor that was closed while a duplicate of it
was open. Nothing else can fail; in particular no `Socket` is used after it was deleted when
there are no duplicates, whatever is closed while others wait.
-/

namespace Libcr

namespace Old

/-- The calls that fail, and how. -/
def Sched.Fails (s : Sched) : Act → Fault → Prop
  | .spawn _ _, f => s.inUser = true ∧ (kCoroNum : Int) ≤ s.idMap.allocate.1 ∧
      f = .coros s.idMap.allocate.1
  | .yield, f => s.inUser = true ∧ (s.running = -1 ∧ f = .coros (-1) ∨
      s.running ≠ -1 ∧ s.main = none ∧ f = .context)
  | .status id, f => s.inUser = true ∧ ¬ (0 ≤ id ∧ id < kCoroNum) ∧ f = .coros id
  | .resume id, f => s.inUser = true ∧ ¬ (0 ≤ id ∧ id < kCoroNum) ∧ f = .coros id
  | .io _ fd _ ctl, f => s.inUser = true ∧ (s.running = -1 ∧ f = .coros (-1) ∨
      s.running ≠ -1 ∧ ¬ (0 ≤ fd ∧ fd < kCoroNum) ∧ f = .socks fd ∨
      s.running ≠ -1 ∧ (0 ≤ fd ∧ fd < kCoroNum) ∧ s.epoll fd = none ∧ ctl = none ∧
        s.main = none ∧ f = .context)
  | .close fd _, f => s.inUser = true ∧ ¬ (0 ≤ fd ∧ fd < kCoroNum) ∧ f = .socks fd
  | .ret, f => s.inUser = true ∧ s.control ≠ .main ∧ s.main = none ∧ f = .context
  | .next, f => ∃ i p, s.control = .run i ∧ s.active[i]? = some p ∧ .finished p ∈ s.log ∧
      f = .coroutine p
  | .network events, f => s.control = .run s.active.length ∧
      (∀ e ∈ events, (s.watched e.1).isSome) ∧
      ∃ k, (events.filterMap strayOf).head? = some k ∧ f = .socket k
  | _, _ => False

variable {s : Sched} {a : Act} {f : Fault}

/-- Every fault is one of those. -/
theorem Effect.fails (hl : Logged s) (he : Effect s a (.error f)) : s.Fails a f := by
  cases he with
  | @overflow arg fn id huser hid hle =>
      rw [Sched.Fails, hid]
      exact ⟨huser, Int.ofNat_le.mpr hle, rfl⟩
  | yieldNone huser hrunning => exact ⟨huser, Or.inl ⟨hrunning, rfl⟩⟩
  | yieldLost huser hrunning hmain => exact ⟨huser, Or.inr ⟨hrunning, hmain, rfl⟩⟩
  | statusOutside huser hid => exact ⟨huser, hid, rfl⟩
  | ioNone huser hrunning => exact ⟨huser, Or.inl ⟨hrunning, rfl⟩⟩
  | ioOutside huser hrunning hfd => exact ⟨huser, Or.inr (Or.inl ⟨hrunning, hfd, rfl⟩)⟩
  | ioLost huser hrunning hmain hfd hnew =>
      exact ⟨huser, Or.inr (Or.inr ⟨hrunning, hfd, hnew, rfl, hmain, rfl⟩)⟩
  | closeOutside huser hfd => exact ⟨huser, hfd, rfl⟩
  | retLost hctl huser hmain => exact ⟨huser, by simp [hctl], hmain, rfl⟩
  | @dangling i p hctl hat hgone =>
      exact ⟨i, p, hctl, hat, (hl.dead p).mpr ⟨List.mem_of_getElem? hat, hgone⟩, rfl⟩
  | resumeOutside huser hid => exact ⟨huser, hid, rfl⟩
  | @stray events k rest hctl hset hstray => exact ⟨hctl, hset, k, by simp [hstray], rfl⟩

/-- Each of those can happen. -/
theorem Sched.Fails.possible (h : Inv s) (hf : s.Fails a f) : ∃ res, s.perform a = some res := by
  cases a with
  | spawn => exact ⟨_, if_pos hf.1⟩
  | yield => exact ⟨_, if_pos hf.1⟩
  | status => exact ⟨_, if_pos hf.1⟩
  | resume => exact ⟨_, if_pos hf.1⟩
  | io => exact ⟨_, if_pos hf.1⟩
  | close => exact ⟨_, if_pos hf.1⟩
  | ret =>
      obtain ⟨huser, hne, -⟩ := hf
      rcases h.user_cases huser with ⟨hctl, -⟩ | ⟨p, co, hctl, hco, -, hpc⟩
      · exact absurd hctl hne
      · have hlocals := (h.placed.own p co hco).locals (by simp [hpc])
        simp [Sched.perform, Sched.executing, hctl, hco, hpc, hlocals]
  | next =>
      obtain ⟨i, p, hctl, hat, -⟩ := hf
      simp [Sched.perform, hctl, hat]
  | network => exact ⟨_, if_pos ⟨hf.1, hf.2.1⟩⟩
  | native => exact hf.elim
  | run => exact hf.elim
  | forget => exact hf.elim

/-- `Resume` does not fail for a live coroutine. -/
theorem Resumes.not_fails (hl : Logged s) {p : CoPtr} {r : Resumer} {os : List Obs}
    {co : Coroutine} (hres : Resumes s a p r os) (hco : s.coroutines p = some co) :
    ¬ s.Fails a f := by
  intro hf
  cases hres with
  | run hctl hat =>
      obtain ⟨j, q, hctl', hat', hfinished, -⟩ := hf
      obtain rfl := Control.run.inj (hctl.symm.trans hctl')
      obtain rfl := Option.some.inj (hat.symm.trans hat')
      cases hco.symm.trans ((hl.dead p).mp hfinished).2
  | user huser hid =>
      rw [Sched.corosAt, if_neg hf.2.1] at hid
      cases hid

/-- Each of those is a fault. -/
theorem Sched.Fails.perform (h : Inv s) (hl : Logged s) (hf : s.Fails a f) :
    s.perform a = some (.error f) := by
  obtain ⟨res, hp⟩ := hf.possible h
  rw [hp]
  have hne : ∀ {r : Resumer}, s.main = some r → s.main ≠ none := by simp +contextual
  cases h.effect hp with
  | spawn _ hid hlt =>
      have hle := hf.2.1
      rw [hid] at hle
      exact absurd (Int.ofNat_le.mp hle) (Nat.not_le.mpr hlt)
  | overflow _ hid _ => rw [hf.2.2, hid]
  | yield hctl hmain _ _ =>
      rcases hf with ⟨-, ⟨hrunning, -⟩ | ⟨-, hnone, -⟩⟩
      · exact absurd hrunning (h.running_ne hctl hmain)
      · exact absurd hnone (hne hmain)
  | yieldNone _ hrunning =>
      rcases hf with ⟨-, ⟨-, rfl⟩ | ⟨hsome, -⟩⟩
      · rfl
      · exact absurd hrunning hsome
  | yieldLost _ hrunning _ =>
      rcases hf with ⟨-, ⟨hnone, -⟩ | ⟨-, -, rfl⟩⟩
      · exact absurd hnone hrunning
      · rfl
  | statusOutside => rw [hf.2.2]
  | status _ hid => exact absurd hid hf.2.1
  | ioNone _ hrunning =>
      rcases hf with ⟨-, ⟨-, rfl⟩ | ⟨hsome, -⟩ | ⟨hsome, -⟩⟩
      · rfl
      · exact absurd hrunning hsome
      · exact absurd hrunning hsome
  | ioOutside _ hrunning hfd =>
      rcases hf with ⟨-, ⟨hnone, -⟩ | ⟨-, -, rfl⟩ | ⟨-, hin, -⟩⟩
      · exact absurd hnone hrunning
      · rfl
      · exact absurd hin hfd
  | ioFailed _ hrunning _ hfd hfail =>
      rcases hf with ⟨-, ⟨hnone, -⟩ | ⟨-, hout, -⟩ | ⟨-, -, hnew, rfl, -⟩⟩
      · exact absurd hnone hrunning
      · exact absurd hfd hout
      · simp [hnew] at hfail
  | ioLost _ hrunning _ hfd _ =>
      rcases hf with ⟨-, ⟨hnone, -⟩ | ⟨-, hout, -⟩ | ⟨-, -, -, -, -, rfl⟩⟩
      · exact absurd hnone hrunning
      · exact absurd hfd hout
      · rfl
  | ioWait hctl hmain _ _ hfd _ =>
      rcases hf with ⟨-, ⟨hnone, -⟩ | ⟨-, hout, -⟩ | ⟨-, -, -, -, hnone, -⟩⟩
      · exact absurd hnone (h.running_ne hctl hmain)
      · exact absurd hfd hout
      · exact absurd hnone (hne hmain)
  | turn => exact hf.elim
  | closeOutside => rw [hf.2.2]
  | close _ hfd => exact absurd hfd hf.2.1
  | ret _ hmain _ _ => exact absurd hf.2.2.1 (hne hmain)
  | retLost => rw [hf.2.2.2]
  | run => exact hf.elim
  | dangling hctl hat _ =>
      obtain ⟨j, q, hctl', hat', -, rfl⟩ := hf
      obtain rfl := Control.run.inj (hctl.symm.trans hctl')
      rw [Option.some.inj (hat.symm.trans hat')]
  | resumeOutside => rw [hf.2.2]
  | resumeNull _ hid =>
      rw [Sched.corosAt, if_neg hf.2.1] at hid
      cases hid
  | idle hres hco _ => exact absurd hf (hres.not_fails hl hco)
  | enter hres hco _ => exact absurd hf (hres.not_fails hl hco)
  | rejoin hres hco _ => exact absurd hf (hres.not_fails hl hco)
  | wake hres hco _ => exact absurd hf (hres.not_fails hl hco)
  | network _ _ hfine =>
      obtain ⟨-, -, k, hk, -⟩ := hf
      rw [hfine] at hk
      cases hk
  | stray _ _ hstray =>
      obtain ⟨-, -, k, hk, rfl⟩ := hf
      rw [hstray] at hk
      rw [Option.some.inj hk]
  | forget => exact hf.elim

theorem fails_iff_perform (h : Inv s) (hl : Logged s) :
    s.perform a = some (.error f) ↔ s.Fails a f :=
  ⟨fun hp => (h.effect hp).fails hl, Sched.Fails.perform h hl⟩

/-- In every state the calls that fail are exactly those. -/
theorem fails_iff (h : s.Reached) (a : Act) (f : Fault) :
    s.perform a = some (.error f) ↔ s.Fails a f :=
  fails_iff_perform h.inv h.logged

/-- A second coroutine closes the descriptor the first one waits for, of which there is a
duplicate; the event for the first one makes `CheckNetwork` follow the deleted `Socket`. -/
theorem fails_iff_closed :
    ∃ s : Sched, s.Reached ∧ s.control = .run 2 ∧ s.fault = none ∧
      s.perform (.network [(.orphan 1, 1)]) = some (.error (.socket 1)) := by
  let acts : List Act := [.spawn 7 8, .spawn 9 10, .run, .next, .io .recv 5 10 none, .next,
    .close 5 true, .yield]
  obtain ⟨s, hs, hend⟩ := Option.map_eq_some_iff.mp (show
    (exec Sched.step Sched.new acts).map (fun s => (s.control, s.fault, s.active, s.orphans)) =
      some (.run 2, none, [1, 2], [1]) by decide +kernel)
  simp only [Prod.mk.injEq] at hend
  obtain ⟨hctl, hfault, hactive, horphans⟩ := hend
  have hreached : s.Reached := exec_reaches (fun _ _ _ => trivial) hs
  refine ⟨s, hreached, hctl, hfault, (fails_iff hreached _ (.socket 1)).mpr ⟨?_, ?_, 1, rfl, rfl⟩⟩
  · simp [hctl, hactive]
  · simp [Sched.watched, horphans]

end Old

end Libcr
