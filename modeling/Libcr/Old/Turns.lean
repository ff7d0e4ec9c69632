import Libcr.Old.Preservation

/-!
# The passes of `Run`

`Run` walks through `active_` from the front each time `epoll_wait` has returned, and
nothing is ever taken off the list. What it calls `Resume` for in a pass is therefore
everything that was ever put there, in that order; the coroutines whose descriptors are ready
come once more. A coroutine that has ended is still on the list, so that the first pass after
the one in which it ended follows a pointer to a deleted object.
-/

namespace Libcr

namespace Old

/-- What an entry puts on `active_`. -/
def Obs.queued? : Obs → Option CoPtr
  | .spawned p _ => some p
  | .pushed p => some p
  | _ => none

/-- What was put on `active_`, in order. -/
def queued (log : List Obs) : List CoPtr := log.filterMap Obs.queued?

/-- The turns of a pass after one more entry. -/
def turnsStep (turns : List CoPtr) : Obs → List CoPtr
  | .started => []
  | .waited => []
  | .visited p => turns ++ [p]
  | _ => turns

/-- What `Run` has come to since it was called or `epoll_wait` returned last. -/
def turns (log : List Obs) : List CoPtr := log.foldl turnsStep []

/-- The entry is about neither `active_` nor a pass nor the end of a coroutine. -/
def Obs.quiet : Obs → Bool
  | .refused _ => true
  | .resumed _ => true
  | .left _ => true
  | .called _ _ _ => true
  | .moved _ _ => true
  | .entered _ _ _ => true
  | .returned _ _ _ _ => true
  | _ => false

theorem queued_quiet {os : List Obs} (h : ∀ o ∈ os, o.quiet = true) : queued os = [] := by
  rw [queued, List.filterMap_eq_nil_iff]
  intro o ho
  have hquiet := h o ho
  cases o <;> first | rfl | cases hquiet

theorem foldl_turnsStep_quiet {os : List Obs} (h : ∀ o ∈ os, o.quiet = true)
    (acc : List CoPtr) : os.foldl turnsStep acc = acc := by
  induction os generalizing acc with
  | nil => rfl
  | cons o rest ih =>
      rw [List.forall_mem_cons] at h
      have hstep : turnsStep acc o = acc := by
        have hquiet := h.1
        cases o <;> first | rfl | cases hquiet
      rw [List.foldl_cons, hstep, ih h.2]

theorem turns_append (l os : List Obs) : turns (l ++ os) = os.foldl turnsStep (turns l) :=
  List.foldl_append

theorem queued_append (l os : List Obs) : queued (l ++ os) = queued l ++ queued os :=
  List.filterMap_append

theorem mem_foldl_turnsStep {p : CoPtr} {os : List Obs} {acc : List CoPtr}
    (h : p ∈ os.foldl turnsStep acc) : p ∈ acc ∨ .visited p ∈ os := by
  induction os generalizing acc with
  | nil => exact Or.inl h
  | cons o rest ih =>
      rcases ih h with hacc | hrest
      · cases o with
        | started => cases hacc
        | waited => cases hacc
        | visited q =>
            rcases List.mem_append.mp hacc with hacc | hq
            · exact Or.inl hacc
            · rw [List.mem_singleton.mp hq]
              exact Or.inr (List.mem_cons_self ..)
        | _ => exact Or.inl hacc
      · exact Or.inr (List.mem_cons_of_mem _ hrest)

/-- What `Run` has come to since the last wait it came to after it. -/
theorem visited_mem_of_mem_turns {p : CoPtr} {l os : List Obs}
    (h : p ∈ turns (l ++ .waited :: os)) : .visited p ∈ os := by
  rw [turns_append, List.foldl_cons] at h
  rcases mem_foldl_turnsStep h with hnil | hmem
  · cases hnil
  · exact hmem

/-- The number of entries of `active_` that `Run` has come to in its pass, if it has control or
is in `Resume`. -/
def Sched.position (s : Sched) : Option Nat :=
  match s.control, s.main with
  | .run i, _ => some i
  | .coroutine _, some (.run i) => some (i + 1)
  | _, _ => none

/-- What a step shows of the passes. -/
inductive Shown (s t : Sched) : Prop
  /-- Nothing, or that `Run` will not be returned to. -/
  | quiet (os : List Obs) (hlog : t.log = s.log ++ os) (hquiet : ∀ o ∈ os, o.quiet = true)
      (hactive : t.active = s.active) (hposition : ∀ n, t.position = some n → s.position = some n)
      (hlive : ∀ q, (t.coroutines q).isSome = (s.coroutines q).isSome)
  | spawn (p : CoPtr) (id : Int) (hlog : t.log = s.log ++ [.spawned p id])
      (hactive : t.active = s.active ++ [p]) (hposition : t.position = s.position)
      (hnew : p ∉ s.active)
      (hlive : ∀ q, (t.coroutines q).isSome = true ↔ q = p ∨ (s.coroutines q).isSome = true)
  | finish (p : CoPtr) (hlog : t.log = s.log ++ [.finished p]) (hactive : t.active = s.active)
      (hposition : t.position = s.position) (hp : (s.coroutines p).isSome = true)
      (hlive : ∀ q, (t.coroutines q).isSome = true ↔ q ≠ p ∧ (s.coroutines q).isSome = true)
  | start (hlog : t.log = s.log ++ [.started]) (hactive : t.active = s.active)
      (hposition : t.position = some 0)
      (hlive : ∀ q, (t.coroutines q).isSome = (s.coroutines q).isSome)
  | visit (p : CoPtr) (i : Nat) (os : List Obs) (hlog : t.log = s.log ++ .visited p :: os)
      (hquiet : ∀ o ∈ os, o.quiet = true) (hactive : t.active = s.active)
      (hfrom : s.position = some i) (hat : s.active[i]? = some p)
      (hposition : t.position = some (i + 1)) (hp : (s.coroutines p).isSome = true)
      (hlive : ∀ q, (t.coroutines q).isSome = (s.coroutines q).isSome)
  | wait (ps : List CoPtr) (hlog : t.log = s.log ++ .waited :: ps.map .pushed)
      (hps : ∀ p ∈ ps, p ∈ s.active) (hactive : t.active = s.active ++ ps)
      (hend : s.position = some s.active.length) (hposition : t.position = some 0)
      (hlive : ∀ q, (t.coroutines q).isSome = (s.coroutines q).isSome)

section Effects

variable {s t : Sched} {p : CoPtr} {r : Resumer} {co : Coroutine}

/-- The same coroutines live when one has moved. -/
theorem isSome_of_update {co' : Coroutine} (hco : s.coroutines p = some co)
    (hcos : t.coroutines = Function.update s.coroutines p (some co')) (q : CoPtr) :
    (t.coroutines q).isSome = (s.coroutines q).isSome := by
  rw [hcos]
  by_cases hqp : q = p
  · subst hqp
    simp [hco]
  · rw [Function.update_of_ne hqp]

theorem position_of_run {i : Nat} (hctl : s.control = .run i) : s.position = some i := by
  rw [Sched.position, hctl]

theorem position_congr (hcontrol : t.control = s.control) (hmain : t.main = s.main) :
    t.position = s.position := by
  rw [Sched.position, Sched.position, hcontrol, hmain]

/-- A pass goes on when the coroutine that `Run` has resumed switches to `main_`. -/
theorem position_of_return (hctl : s.control = .coroutine p) (hmain : s.main = some r)
    (hctl' : t.control = r.control) (hmain' : t.main = none) : t.position = s.position := by
  rw [Sched.position, Sched.position, hctl, hmain, hctl', hmain']
  cases r <;> rfl

/-- What going on in `Accept`, `Recv` or `Send` changes. -/
theorem Sched.gone_fields (hctl : s.control = .coroutine p) (hmain : s.main = some r)
    (co : Coroutine) (next : IoNext) :
    ∃ co' os, (s.gone p r co next).coroutines = Function.update s.coroutines p (some co') ∧
      (s.gone p r co next).log = s.log ++ os ∧ (∀ o ∈ os, o.quiet = true) ∧
      (s.gone p r co next).active = s.active ∧
      (s.gone p r co next).position = s.position := by
  cases next with
  | wait call =>
      exact ⟨_, [_], rfl, rfl, by simp [Obs.quiet], rfl, position_of_return hctl hmain rfl rfl⟩
  | loop call => exact ⟨_, [], rfl, (List.append_nil _).symm, by simp, rfl, rfl⟩
  | back call value => exact ⟨_, [_], rfl, rfl, by simp [Obs.quiet], rfl, rfl⟩

/-- A turn of a loop shows the bytes it moved. -/
theorem IoCall.turn_moved (call : IoCall) (ans : Answer) :
    ∀ o ∈ (call.turn ans).1, ∃ n, o = .moved call.coro n := by
  cases ans with
  | again => simp [IoCall.turn]
  | intr => simp [IoCall.turn]
  | error => simp [IoCall.turn]
  | done n =>
      unfold IoCall.turn
      dsimp only
      split
      · simp
      · split <;> simp
      · split <;> simp

/-- What a call of `Resume` shows, whether it switches to the coroutine or not. -/
theorem Resumes.shown {a : Act} {os : List Obs} (hres : Resumes s a p r os) (os' : List Obs)
    (hp : (s.coroutines p).isSome = true) (hlog : t.log = s.log ++ (os ++ os'))
    (hquiet : ∀ o ∈ os', o.quiet = true) (hactive : t.active = s.active)
    (hlive : ∀ q, (t.coroutines q).isSome = (s.coroutines q).isSome)
    (hrun : ∀ i, r = .run i → t.position = some (i + 1))
    (huser : (∀ i, r ≠ .run i) → ∀ n, t.position = some n → s.position = some n) :
    Shown s t := by
  cases hres with
  | @run i p hctl hat =>
      exact .visit p i os' hlog hquiet hactive (position_of_run hctl) hat (hrun i rfl) hp hlive
  | user =>
      refine .quiet os' hlog hquiet hactive (huser fun i => ?_) hlive
      unfold Sched.user
      split <;> simp

/-- After a switch to a coroutine only `Run` keeps its place. -/
theorem position_of_switch (hctl : t.control = .coroutine p) (hmain : t.main = some r) :
    (∀ i, r = .run i → t.position = some (i + 1)) ∧
      ((∀ i, r ≠ .run i) → ∀ n, t.position = some n → s.position = some n) := by
  rw [Sched.position, hctl, hmain]
  constructor
  · rintro i rfl
    rfl
  · intro hne n hn
    cases r with
    | run i => exact absurd rfl (hne i)
    | main => cases hn
    | coroutine q => cases hn

/-- Every step shows one of the six things. -/
theorem Effect.shown (h : Inv s) {a : Act} (he : Effect s a (.ok t)) : Shown s t := by
  cases he with
  | @spawn arg fn id huser hid hlt =>
      refine .spawn s.nextCo id rfl rfl rfl ?_ ?_
      · rw [h.active]
        exact fun hmem => absurd hmem.2 (lt_irrefl _)
      · intro q
        change (Function.update s.coroutines s.nextCo _ q).isSome = true ↔ _
        by_cases hq : q = s.nextCo
        · subst hq
          simp
        · rw [Function.update_of_ne hq]
          simp [hq]
  | @yield p r co hctl hmain hco hpc =>
      have hposition := position_of_return (t := { s.left p
        { co with status := .suspend, pc := .yielded } r with running := -1 }) hctl hmain rfl rfl
      exact .quiet [.left p] rfl (by simp [Obs.quiet]) rfl (fun n hn => hposition ▸ hn)
        (isSome_of_update hco rfl)
  | status => exact .quiet [] (List.append_nil _).symm (by simp) rfl (fun _ => id) fun _ => rfl
  | @ioFailed coro co kind fd len ctl huser hrunning hco hfd hfail =>
      have hsame := s.equipped_same coro kind fd len
      refine .quiet [.entered s.caller kind len, .returned s.caller kind len (-1)] ?_
        (by simp [Obs.quiet]) hsame.active ?_ ?_
      · rw [Sched.emit, hsame.log]
        simp
      · intro n hn
        rw [← position_congr hsame.control hsame.main]
        exact hn
      · intro q
        rw [Sched.emit, hsame.coroutines]
  | @ioWait p r co kind fd len hctl hmain hco hpc hfd hnew =>
      have hsame := s.equipped_same p kind fd len
      have hposition := position_of_return (t := s.startedIo p r co kind fd len) hctl hmain rfl rfl
      refine .quiet [.entered s.caller kind len, .left p] ?_ (by simp [Obs.quiet]) hsame.active
        (fun n hn => hposition ▸ hn)
        (isSome_of_update hco (congrArg (Function.update · p _) hsame.coroutines))
      change (s.equipped p kind fd len).1.log ++ [.left p] = _
      rw [hsame.log]
      simp
  | @turn p r co call ans hctl hmain hco hpc hfits =>
      obtain ⟨co', os, hcos, hlog, hquiet, hactive, hposition⟩ :=
        Sched.gone_fields (s := s.emit (call.turn ans).1) hctl hmain co (call.turn ans).2
      refine .quiet ((call.turn ans).1 ++ os) ?_ ?_ hactive (fun n hn => ?_)
        (isSome_of_update hco hcos)
      · rw [hlog, Sched.emit, List.append_assoc]
      · rw [List.forall_mem_append]
        refine ⟨fun o ho => ?_, hquiet⟩
        obtain ⟨n, rfl⟩ := call.turn_moved ans o ho
        rfl
      · rw [hposition] at hn
        exact hn
  | @close fd dup huser hfd =>
      exact .quiet [] (List.append_nil _).symm (by simp) rfl (fun _ => id) fun _ => rfl
  | @ret p r co hctl hmain hco hpc =>
      refine .finish p rfl rfl (position_of_return hctl hmain rfl rfl) (by simp [hco]) ?_
      intro q
      change (Function.update s.coroutines p none q).isSome = true ↔ _
      by_cases hq : q = p
      · subst hq
        simp
      · rw [Function.update_of_ne hq]
        simp [hq]
  | run huser => exact .start rfl rfl rfl fun _ => rfl
  | resumeNull =>
      exact .quiet [] (List.append_nil _).symm (by simp) rfl (fun _ => id) fun _ => rfl
  | @idle a p r os co hres hco hexec =>
      refine hres.shown [] (by simp [hco]) (by simp [Sched.emit]) (by simp) rfl
        (fun _ => rfl) ?_ ?_
      · rintro i rfl
        rfl
      · intro hne n hn
        cases hres with
        | run => exact absurd rfl (hne _)
        | user huser _ =>
            rw [← position_congr (t := { s.emit [] with control := s.user.control })
              (Inv.user_control huser) rfl]
            exact hn
  | @enter a p r os co hres hco hpc =>
      obtain ⟨hrun, huser⟩ := position_of_switch (s := s) (t := (((s.emit os).resumed p co r).setCo
        p (some { co with status := .running, locals := some (co.id, p), pc := .user })).emit
          [.called p co.fn co.arg]) rfl rfl
      refine hres.shown [.resumed p, .called p co.fn co.arg] (by simp [hco]) ?_
        (by simp [Obs.quiet]) rfl (isSome_of_update hco (Function.update_idem ..)) hrun huser
      simp [Sched.emit, Sched.setCo, Sched.resumed]
  | @rejoin a p r os co hres hco hpc =>
      obtain ⟨hrun, huser⟩ := position_of_switch (s := s) (t := ((s.emit os).resumed p co r).setCo
        p (some { co with status := .running, pc := .user })) rfl rfl
      refine hres.shown [.resumed p] (by simp [hco]) ?_ (by simp [Obs.quiet]) rfl
        (isSome_of_update hco (Function.update_idem ..)) hrun huser
      simp [Sched.emit, Sched.setCo, Sched.resumed]
  | @wake a p r os co call hres hco hpc =>
      let unregistered : Sched :=
        { (s.emit os).resumed p co r with epoll := Function.update s.epoll call.fd none }
      obtain ⟨co', os', hcos, hlog, hquiet, hactive, hposition⟩ :=
        Sched.gone_fields (s := unregistered) rfl rfl { co with status := .running } call.head
      obtain ⟨hrun, huser⟩ := position_of_switch (s := s) (t := unregistered) rfl rfl
      rw [← hposition] at hrun huser
      refine hres.shown (.resumed p :: os') (by simp [hco]) ?_ ?_ hactive
        (isSome_of_update hco (hcos.trans (Function.update_idem ..))) hrun huser
      · rw [hlog]
        simp [unregistered, Sched.resumed, Sched.emit]
      · rw [List.forall_mem_cons]
        exact ⟨rfl, hquiet⟩
  | @network events hctl hset hfine =>
      exact .wait (s.pushes events) rfl (fun p => h.mem_active_of_mem_pushes) rfl
        (position_of_run hctl) rfl fun _ => rfl
  | forget => exact .quiet [] (List.append_nil _).symm (by simp) rfl (fun _ => id) fun _ => rfl

end Effects

/-- What the log says about the state, and about itself. -/
structure Logged (s : Sched) : Prop where
  queue : queued s.log = s.active
  pass : ∀ n, s.position = some n → turns s.log = s.active.take n
  dead : ∀ p, .finished p ∈ s.log ↔ p ∈ s.active ∧ s.coroutines p = none
  passes : ∀ l₁ l₂, s.log = l₁ ++ .waited :: l₂ → turns l₁ = queued l₁
  ended : ∀ l₁ l₂ p, s.log = l₁ ++ .finished p :: l₂ → p ∈ queued l₁ ∧ .visited p ∉ l₂

theorem logged_new : Logged Sched.new where
  queue := rfl
  pass := by simp [Sched.position, Sched.new]
  dead := by simp [Sched.new]
  passes := by simp [Sched.new]
  ended := by simp [Sched.new]

section Logs

variable {s t : Sched} {os : List Obs}

theorem Inv.position_le (h : Inv s) {n : Nat} (hn : s.position = some n) :
    n ≤ s.active.length := by
  unfold Sched.position at hn
  split at hn
  · next _ i hctl =>
      obtain rfl := Option.some.inj hn
      exact h.placed.run i hctl
  · next p i hctl hmain =>
      obtain rfl := Option.some.inj hn
      exact (h.placed.saved p (.run i) hctl hmain).2
  · cases hn

theorem Inv.mem_active_of_live (h : Inv s) {p : CoPtr} (hp : (s.coroutines p).isSome = true) :
    p ∈ s.active := by
  obtain ⟨co, hco⟩ := Option.isSome_iff_exists.mp hp
  have hid := s.idOf_eq hco
  exact (h.active p).mpr ⟨h.table.pos_of_live hid, h.table.lt_of_live hid⟩

theorem coroutines_eq_none_iff (p : CoPtr) :
    s.coroutines p = none ↔ ¬ (s.coroutines p).isSome = true :=
  Option.not_isSome_iff_eq_none.symm

/-- What is said about the waits of the past is said about those of a step. -/
theorem Logged.passes_append (hl : Logged s) (hlog : t.log = s.log ++ os)
    (hnew : ∀ os₁ os₂, os = os₁ ++ .waited :: os₂ → turns (s.log ++ os₁) = queued (s.log ++ os₁))
    (l₁ l₂ : List Obs) (hsplit : t.log = l₁ ++ .waited :: l₂) : turns l₁ = queued l₁ := by
  rw [hlog] at hsplit
  rcases split_append hsplit with ⟨mid, hold, -⟩ | ⟨os₁, rfl, hos⟩
  · exact hl.passes l₁ mid hold
  · exact hnew os₁ l₂ hos

/-- What is said about the ends of the past stays true, as `Run` goes on after a live coroutine
only. -/
theorem Logged.ended_append (hl : Logged s) (hlog : t.log = s.log ++ os)
    (hvisited : ∀ p, .visited p ∈ os → (s.coroutines p).isSome = true)
    (hnew : ∀ os₁ os₂ p, os = os₁ ++ .finished p :: os₂ →
      p ∈ queued (s.log ++ os₁) ∧ .visited p ∉ os₂)
    (l₁ l₂ : List Obs) (p : CoPtr) (hsplit : t.log = l₁ ++ .finished p :: l₂) :
    p ∈ queued l₁ ∧ .visited p ∉ l₂ := by
  rw [hlog] at hsplit
  rcases split_append hsplit with ⟨mid, hold, rfl⟩ | ⟨os₁, rfl, hos⟩
  · obtain ⟨hqueued, hmid⟩ := hl.ended l₁ mid p hold
    have hdead : s.coroutines p = none := by
      apply ((hl.dead p).mp _).2
      rw [hold]
      simp
    refine ⟨hqueued, fun hmem => ?_⟩
    rcases List.mem_append.mp hmem with hmem | hmem
    · exact hmid hmem
    · exact (coroutines_eq_none_iff p).mp hdead (hvisited p hmem)
  · exact hnew os₁ l₂ p hos

theorem notMem_split {o : Obs} {os₁ os₂ : List Obs} (h : o ∉ os) : os ≠ os₁ ++ o :: os₂ := by
  rintro rfl
  exact h (List.mem_append_right _ (List.mem_cons_self ..))

theorem Logged.quiet (hl : Logged s) (hlog : t.log = s.log ++ os)
    (hquiet : ∀ o ∈ os, o.quiet = true) (hactive : t.active = s.active)
    (hposition : ∀ n, t.position = some n → s.position = some n)
    (hlive : ∀ q, (t.coroutines q).isSome = (s.coroutines q).isSome) : Logged t where
  queue := by rw [hlog, queued_append, queued_quiet hquiet, List.append_nil, hl.queue, hactive]
  pass := by
    intro n hn
    rw [hlog, turns_append, foldl_turnsStep_quiet hquiet, hactive]
    exact hl.pass n (hposition n hn)
  dead := by
    intro p
    have hos : .finished p ∉ os := fun ho => Bool.false_ne_true (hquiet _ ho)
    rw [hlog, List.mem_append, or_iff_left hos, hl.dead, hactive, coroutines_eq_none_iff,
      coroutines_eq_none_iff, hlive]
  passes := hl.passes_append hlog fun _ _ hos =>
    absurd hos (notMem_split fun ho => Bool.false_ne_true (hquiet _ ho))
  ended := hl.ended_append hlog (fun _ ho => absurd (hquiet _ ho) Bool.false_ne_true)
    fun _ _ _ hos => absurd hos (notMem_split fun ho => Bool.false_ne_true (hquiet _ ho))

theorem Logged.spawn (hl : Logged s) (h : Inv s) {p : CoPtr} {id : Int}
    (hlog : t.log = s.log ++ [.spawned p id]) (hactive : t.active = s.active ++ [p])
    (hposition : t.position = s.position) (hnew : p ∉ s.active)
    (hlive : ∀ q, (t.coroutines q).isSome = true ↔ q = p ∨ (s.coroutines q).isSome = true) :
    Logged t where
  queue := by
    rw [hlog, queued_append, hl.queue, hactive]
    rfl
  pass := by
    intro n hn
    rw [hposition] at hn
    rw [hlog, turns_append, hactive, List.take_append_of_le_length (h.position_le hn),
      ← hl.pass n hn]
    rfl
  dead := by
    intro q
    rw [hlog, List.mem_append, or_iff_left (by simp), hl.dead, hactive, coroutines_eq_none_iff,
      coroutines_eq_none_iff, hlive, List.mem_append, List.mem_singleton]
    constructor
    · rintro ⟨hq, hdead⟩
      refine ⟨Or.inl hq, ?_⟩
      rintro (rfl | hq')
      · exact hnew hq
      · exact hdead hq'
    · rintro ⟨hq | rfl, hdead⟩
      · exact ⟨hq, fun hq' => hdead (Or.inr hq')⟩
      · exact absurd (Or.inl rfl) hdead
  passes := hl.passes_append hlog fun _ _ hos => absurd hos (notMem_split (by simp))
  ended := hl.ended_append hlog (by simp) fun _ _ _ hos => absurd hos (notMem_split (by simp))

theorem Logged.finish (hl : Logged s) (h : Inv s) {p : CoPtr}
    (hlog : t.log = s.log ++ [.finished p]) (hactive : t.active = s.active)
    (hposition : t.position = s.position) (hp : (s.coroutines p).isSome = true)
    (hlive : ∀ q, (t.coroutines q).isSome = true ↔ q ≠ p ∧ (s.coroutines q).isSome = true) :
    Logged t where
  queue := by
    rw [hlog, queued_append, hl.queue, hactive]
    exact List.append_nil _
  pass := by
    intro n hn
    rw [hposition] at hn
    rw [hlog, turns_append, hactive, ← hl.pass n hn]
    rfl
  dead := by
    intro q
    rw [hlog, List.mem_append, hl.dead, hactive, coroutines_eq_none_iff, coroutines_eq_none_iff,
      hlive, List.mem_singleton, Obs.finished.injEq]
    constructor
    · rintro (⟨hq, hdead⟩ | rfl)
      · exact ⟨hq, fun hq' => hdead hq'.2⟩
      · exact ⟨h.mem_active_of_live hp, fun hq' => hq'.1 rfl⟩
    · rintro ⟨hq, hdead⟩
      by_cases hqp : q = p
      · exact Or.inr hqp
      · exact Or.inl ⟨hq, fun hq' => hdead ⟨hqp, hq'⟩⟩
  passes := hl.passes_append hlog fun _ _ hos => absurd hos (notMem_split (by simp))
  ended := by
    apply hl.ended_append hlog (by simp)
    intro os₁ os₂ q hos
    -- The one entry of the step is the end of `p`.
    cases os₁ with
    | nil =>
        obtain ⟨hq, rfl⟩ := List.cons.inj hos
        obtain rfl := Obs.finished.inj hq
        rw [List.append_nil, hl.queue]
        exact ⟨h.mem_active_of_live hp, List.not_mem_nil⟩
    | cons o rest =>
        have hnil := (List.cons.inj hos).2
        simp at hnil

theorem Logged.start (hl : Logged s) (hlog : t.log = s.log ++ [.started])
    (hactive : t.active = s.active) (hposition : t.position = some 0)
    (hlive : ∀ q, (t.coroutines q).isSome = (s.coroutines q).isSome) : Logged t where
  queue := by
    rw [hlog, queued_append, hl.queue, hactive]
    exact List.append_nil _
  pass := by
    intro n hn
    obtain rfl := Option.some.inj (hposition.symm.trans hn)
    rw [hlog, turns_append]
    rfl
  dead := by
    intro q
    rw [hlog, List.mem_append, or_iff_left (by simp), hl.dead, hactive, coroutines_eq_none_iff,
      coroutines_eq_none_iff, hlive]
  passes := hl.passes_append hlog fun _ _ hos => absurd hos (notMem_split (by simp))
  ended := hl.ended_append hlog (by simp) fun _ _ _ hos => absurd hos (notMem_split (by simp))

theorem Logged.visit (hl : Logged s) {p : CoPtr} {i : Nat}
    (hlog : t.log = s.log ++ .visited p :: os) (hquiet : ∀ o ∈ os, o.quiet = true)
    (hactive : t.active = s.active) (hfrom : s.position = some i)
    (hat : s.active[i]? = some p) (hposition : t.position = some (i + 1))
    (hp : (s.coroutines p).isSome = true)
    (hlive : ∀ q, (t.coroutines q).isSome = (s.coroutines q).isSome) : Logged t := by
  have hmem : ∀ o ∈ Obs.visited p :: os, o = .visited p ∨ o.quiet = true := by
    intro o ho
    exact (List.mem_cons.mp ho).imp_right (hquiet o)
  have hwaited : .waited ∉ Obs.visited p :: os := by
    intro ho
    rcases hmem _ ho with ho | ho <;> cases ho
  have hfinished : ∀ q, .finished q ∉ Obs.visited p :: os := by
    intro q ho
    rcases hmem _ ho with ho | ho <;> cases ho
  constructor
  case queue =>
    rw [hlog, queued_append, hl.queue, hactive]
    change s.active ++ queued os = s.active
    rw [queued_quiet hquiet, List.append_nil]
  case pass =>
    intro n hn
    obtain rfl := Option.some.inj (hposition.symm.trans hn)
    rw [hlog, turns_append, List.foldl_cons, foldl_turnsStep_quiet hquiet, hactive,
      List.take_add_one, hat, ← hl.pass i hfrom]
    rfl
  case dead =>
    intro q
    rw [hlog, List.mem_append, or_iff_left (hfinished q), hl.dead, hactive,
      coroutines_eq_none_iff, coroutines_eq_none_iff, hlive]
  case passes => exact hl.passes_append hlog fun _ _ hos => absurd hos (notMem_split hwaited)
  case ended =>
    apply hl.ended_append hlog
    · intro q hq
      rcases hmem _ hq with hq | hq
      · rw [Obs.visited.inj hq]
        exact hp
      · cases hq
    · exact fun _ _ q hos => absurd hos (notMem_split (hfinished q))

theorem Logged.wait (hl : Logged s) {ps : List CoPtr}
    (hlog : t.log = s.log ++ .waited :: ps.map .pushed) (hps : ∀ p ∈ ps, p ∈ s.active)
    (hactive : t.active = s.active ++ ps) (hend : s.position = some s.active.length)
    (hposition : t.position = some 0)
    (hlive : ∀ q, (t.coroutines q).isSome = (s.coroutines q).isSome) : Logged t := by
  constructor
  case queue =>
    rw [hlog, queued_append, hl.queue, hactive]
    change s.active ++ queued (ps.map .pushed) = s.active ++ ps
    rw [queued, List.filterMap_map]
    exact congrArg (s.active ++ ·) List.filterMap_some
  case pass =>
    intro n hn
    obtain rfl := Option.some.inj (hposition.symm.trans hn)
    rw [hlog, turns_append, List.foldl_cons, List.take_zero, List.foldl_map]
    exact List.foldl_fixed ps
  case dead =>
    intro q
    rw [hlog, List.mem_append, or_iff_left (by simp), hl.dead, hactive, coroutines_eq_none_iff,
      coroutines_eq_none_iff, hlive, List.mem_append, or_iff_left_of_imp (hps q)]
  case passes =>
    apply hl.passes_append hlog
    intro os₁ os₂ hos
    cases os₁ with
    | nil =>
        -- `Run` has come to the end of the list.
        rw [List.append_nil, hl.pass _ hend, hl.queue, List.take_length]
    | cons o rest =>
        have hrest := (List.cons.inj hos).2
        exact absurd hrest (notMem_split (by simp))
  case ended =>
    apply hl.ended_append hlog (by simp)
    exact fun _ _ _ hos => absurd hos (notMem_split (by simp))

/-- What the log says is kept by every step. -/
theorem Logged.step (hl : Logged s) (h : Inv s) (ht : Shown s t) : Logged t := by
  cases ht with
  | quiet os hlog hquiet hactive hposition hlive =>
      exact hl.quiet hlog hquiet hactive hposition hlive
  | spawn p id hlog hactive hposition hnew hlive =>
      exact hl.spawn h hlog hactive hposition hnew hlive
  | finish p hlog hactive hposition hp hlive => exact hl.finish h hlog hactive hposition hp hlive
  | start hlog hactive hposition hlive => exact hl.start hlog hactive hposition hlive
  | visit p i os hlog hquiet hactive hfrom hat hposition hp hlive =>
      exact hl.visit hlog hquiet hactive hfrom hat hposition hp hlive
  | wait ps hlog hps hactive hend hposition hlive =>
      exact hl.wait hlog hps hactive hend hposition hlive

/-- The log is right in every state. -/
theorem Sched.Reached.logged (h : s.Reached) : Logged s := by
  refine h.invariant logged_new ?_
  intro u a v hu hl _ hstep
  have hinv := Sched.Reached.inv hu
  obtain ⟨-, heffect | ⟨f, -, rfl⟩⟩ := hinv.step_cases hstep
  · exact hl.step hinv (heffect.shown hinv)
  · exact ⟨hl.queue, hl.pass, hl.dead, hl.passes, hl.ended⟩

/-- A coroutine that is neither in its function nor in a call that goes on can be resumed. -/
theorem Inv.status_ne (h : Inv s) {p : CoPtr} {co : Coroutine} (hco : s.coroutines p = some co)
    (huser : co.pc ≠ .user) (hnative : ∀ call, co.pc ≠ .native call) : co.status ≠ .running := by
  rcases h.placed.places p co hco with (⟨hstatus, -⟩ | ⟨hstatus, -⟩) | ⟨-, hpc | ⟨call, hpc⟩⟩
  · simp [hstatus]
  · simp [hstatus]
  · exact absurd hpc huser
  · exact absurd hpc (hnative call)

/-- `Run` follows the pointer at its iterator. -/
theorem perform_next_deleted {i : Nat} {p : CoPtr} (hctl : s.control = .run i)
    (hat : s.active[i]? = some p) (hgone : s.coroutines p = none) :
    s.perform .next = some (.error (.coroutine p)) := by
  simp [Sched.perform, hctl, hat, Sched.deref, hgone, Except.bind]

/-- `Run` goes on after a live coroutine at its iterator, which is resumed unless it has called
`Resume` or `Run` itself. -/
theorem Inv.next_visits (h : Inv s) {i : Nat} {p : CoPtr} {co : Coroutine}
    (hctl : s.control = .run i) (hat : s.active[i]? = some p) (hco : s.coroutines p = some co) :
    ∃ t os, s.perform .next = some (.ok t) ∧ t.log = s.log ++ .visited p :: os ∧
      (.resumed p ∈ os ↔ co.status ≠ .running) := by
  have hres : Resumes s .next p (.run i) [.visited p] := .run hctl hat
  have hperform : s.perform .next = some ((s.emit [.visited p]).resume co.id (.run i)) := by
    simp [Sched.perform, hctl, hat, Sched.deref, hco, Except.bind]
  have hsame : ∀ {q r os}, Resumes s .next q r os → q = p ∧ r = .run i ∧ os = [.visited p] := by
    rintro q r os ⟨hctl', hat'⟩
    obtain rfl := Control.run.inj (hctl.symm.trans hctl')
    obtain rfl := Option.some.inj (hat.symm.trans hat')
    exact ⟨rfl, rfl, rfl⟩
  have heffect := h.resume_effect hres hco
  generalize (s.emit [.visited p]).resume co.id (.run i) = res at hperform heffect
  cases heffect with
  | dangling hctl' hat' hgone =>
      obtain ⟨rfl, -⟩ := hsame (.run hctl' hat')
      cases hco.symm.trans hgone
  | @idle _ q r os co₁ hres' hco₁ hexec =>
      obtain ⟨rfl, rfl, rfl⟩ := hsame hres'
      obtain rfl := Option.some.inj (hco.symm.trans hco₁)
      exact ⟨_, [], hperform, rfl, by simp [hexec.1]⟩
  | @enter _ q r os co₁ hres' hco₁ hpc =>
      obtain ⟨rfl, rfl, rfl⟩ := hsame hres'
      obtain rfl := Option.some.inj (hco.symm.trans hco₁)
      refine ⟨_, [.resumed q, .called q co.fn co.arg], hperform, ?_, ?_⟩
      · simp [Sched.emit, Sched.setCo, Sched.resumed]
      · exact iff_of_true (by simp) (h.status_ne hco (by simp [hpc]) (by simp [hpc]))
  | @rejoin _ q r os co₁ hres' hco₁ hpc =>
      obtain ⟨rfl, rfl, rfl⟩ := hsame hres'
      obtain rfl := Option.some.inj (hco.symm.trans hco₁)
      refine ⟨_, [.resumed q], hperform, ?_, ?_⟩
      · simp [Sched.emit, Sched.setCo, Sched.resumed]
      · exact iff_of_true (by simp) (h.status_ne hco (by simp [hpc]) (by simp [hpc]))
  | @wake _ q r os co₁ call hres' hco₁ hpc =>
      obtain ⟨rfl, rfl, rfl⟩ := hsame hres'
      obtain rfl := Option.some.inj (hco.symm.trans hco₁)
      let unregistered : Sched := { (s.emit [.visited q]).resumed q co (.run i) with
        epoll := Function.update s.epoll call.fd none }
      obtain ⟨-, os, -, hlog, -⟩ :=
        Sched.gone_fields (s := unregistered) rfl rfl { co with status := .running } call.head
      refine ⟨_, .resumed q :: os, hperform, hlog.trans ?_, ?_⟩
      · simp [unregistered, Sched.resumed, Sched.emit]
      · exact iff_of_true (by simp) (h.status_ne hco (by simp [hpc]) (by simp [hpc]))

end Logs

section Ends

variable {s : Sched}

/-- The old scheduler does not outlive its coroutines: when a coroutine has ended and `Run` has
waited for events since, `Run` reads a deleted `Coroutine` before it waits again. It has not
waited a second time, and in a pass an entry of the coroutine, which is never taken off
`active_`, is not yet behind the iterator; there the pointer is followed. -/
theorem run_reads_deleted (h : s.Reached) {p : CoPtr} {l₁ l₂ l₃ : List Obs}
    (hlog : s.log = l₁ ++ .finished p :: (l₂ ++ .waited :: l₃)) :
    .waited ∉ l₃ ∧ ∀ i, s.position = some i → ∃ j, i ≤ j ∧ s.active[j]? = some p ∧
      (s.control = .run j → s.perform .next = some (.error (.coroutine p))) := by
  have hl := h.logged
  have hfinished : .finished p ∈ s.log := by simp [hlog]
  obtain ⟨hactive, hgone⟩ := (hl.dead p).mp hfinished
  obtain ⟨hqueued, hvisited⟩ := hl.ended l₁ _ p hlog
  constructor
  · intro hmem
    obtain ⟨l₄, l₅, rfl⟩ := List.append_of_mem hmem
    -- The pass that ends with the second wait would have come to `p`.
    have hpass : turns (l₁ ++ .finished p :: l₂ ++ .waited :: l₄) =
        queued (l₁ ++ .finished p :: l₂ ++ .waited :: l₄) := by
      apply hl.passes _ l₅
      rw [hlog]
      simp
    have hturn : p ∈ turns (l₁ ++ .finished p :: l₂ ++ .waited :: l₄) := by
      rw [hpass, List.append_assoc, queued_append]
      exact List.mem_append_left _ hqueued
    have hlate := visited_mem_of_mem_turns hturn
    exact hvisited (by simp [hlate])
  · intro i hi
    -- What the pass has come to it came to after the wait.
    have hahead : p ∉ s.active.take i := by
      rw [← hl.pass i hi, hlog]
      intro hturn
      have hsplit : l₁ ++ .finished p :: (l₂ ++ .waited :: l₃) =
          (l₁ ++ .finished p :: l₂) ++ .waited :: l₃ := by simp
      rw [hsplit] at hturn
      have hlate := visited_mem_of_mem_turns hturn
      exact hvisited (by simp [hlate])
    have hdrop : p ∈ s.active.drop i := by
      rw [← List.take_append_drop i s.active, List.mem_append] at hactive
      exact hactive.resolve_left hahead
    obtain ⟨k, hk⟩ := List.mem_iff_getElem?.mp hdrop
    rw [List.getElem?_drop] at hk
    exact ⟨i + k, Nat.le_add_right _ _, hk, fun hctl => perform_next_deleted hctl hk hgone⟩

end Ends

/-- The only coroutine returns, and `Run` waits once; then it follows the pointer. -/
theorem run_reads_deleted_once :
    ∃ (s : Sched) (l₁ l₂ l₃ : List Obs), s.Reached ∧ s.control = .run 0 ∧ s.active = [1] ∧
      s.log = l₁ ++ .finished 1 :: (l₂ ++ .waited :: l₃) ∧
      s.perform .next = some (.error (.coroutine 1)) := by
  let acts : List Act := [.spawn 7 8, .run, .next, .ret, .network []]
  obtain ⟨s, hs, hend⟩ := Option.map_eq_some_iff.mp (show
    (exec Sched.step Sched.new acts).map (fun s => (s.log, s.control, s.active)) = some
      ([.spawned 1 0, .started, .visited 1, .resumed 1, .called 1 8 7] ++
        .finished 1 :: ([] ++ .waited :: []), .run 0, [1]) by decide +kernel)
  simp only [Prod.mk.injEq] at hend
  obtain ⟨hlog, hctl, hactive⟩ := hend
  have hreached : s.Reached := exec_reaches (fun _ _ _ => trivial) hs
  obtain ⟨-, hahead⟩ := run_reads_deleted hreached hlog
  obtain ⟨j, -, hat, hnext⟩ := hahead 0 (position_of_run hctl)
  obtain ⟨hlt, -⟩ := List.getElem?_eq_some_iff.mp hat
  obtain rfl : j = 0 := by simpa [hactive] using hlt
  exact ⟨s, _, _, _, hreached, hctl, hactive, hlog, hnext hctl⟩

end Old

end Libcr
