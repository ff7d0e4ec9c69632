import Libcr.Hook.DescriptorEffects

/-!
# The table in step with the kernel

Which steps keep the table of tracked descriptors in step with the kernel. The entries
a call creates are for files that are open and were just made non-blocking, and it
drops the entry of what it closes. The exceptions are a `close` or an `F_SETFL` by a
caller with hooks off, which ignores the entry, and an `accept` on a descriptor that is
not open.
-/

namespace Libcr

/-- The condition on a step, from its arguments and the state before it. -/
def Proc.Meets (p : Proc) : ProcOp → Prop
  | .close st fd => st.isEnableSysHook = false → ¬ Tracked p.table fd
  | .setfl st fd param =>
      st.isEnableSysHook = false → Tracked p.table fd → HasNonblock param
  | .accept _ st listenFd =>
      st.isEnableSysHook = true → -1 < listenFd ∧ listenFd < kSocketFds →
        ¬ Tracked p.table listenFd → p.kernel.files listenFd ≠ none
  | .socket _ _ | .resume _ _ _ | .openFile _ _ => True

/-! ### The steps of the process -/

section Steps

variable {p p' : Proc} {st u : HookSys} {created : List Fd}

theorem Does.run {st' : HookSys} {R : Kernel → Kernel → Prop} (h : Does u st' R)
    (hlog : u.log = []) {k k' : Kernel} (hrun : k.run st'.log = some k') : R k k' := by
  obtain ⟨new, hnew, hR⟩ := h
  rw [hnew, hlog, List.nil_append] at hrun
  exact hR k k' hrun

theorem Proc.commit_spec (h : p.commit st created = some p') :
    p.kernel.run st.log = some p'.kernel ∧ p'.table = st.table ∧
      (∀ fd, p'.born fd =
        if fd ∈ created then (p'.kernel.files fd).map OpenFile.serial else p.born fd) ∧
      p'.accepting = p.accepting := by
  obtain ⟨k, hk, rfl⟩ := Option.map_eq_some_iff.mp h
  exact ⟨hk, rfl, fun _ => rfl, rfl⟩

/-- A call keeps the table in step when every entry it leaves is one it created for an
open and non-blocking descriptor, or an old one of a descriptor it left as it was. -/
theorem Proc.InStep.commit (h : p.InStep) (hcommit : p.commit st created = some p')
    (hst : ∀ fd, Tracked st.table fd → fd ∈ created ∧ p'.kernel.Set fd ∨
      fd ∉ created ∧ Tracked p.table fd ∧ p.kernel.Keeps p'.kernel fd) : p'.InStep := by
  obtain ⟨-, htable, hborn, -⟩ := Proc.commit_spec hcommit
  intro fd hfd
  rw [htable] at hfd
  rcases hst fd hfd with ⟨hmem, f, hf, hnb⟩ | ⟨hmem, hold, hkeeps⟩
  · exact ⟨f, hf, by rw [hborn, if_pos hmem, hf]; rfl, hnb⟩
  · obtain ⟨f, hf, hserial, hnb⟩ := h fd hold
    obtain ⟨f', hf', hserial', hnb'⟩ := hkeeps f hf
    exact ⟨f', hf', by rw [hborn, if_neg hmem, hserial, hserial'], hnb' hnb⟩

/-- What the waiting `accept` calls are known by. -/
def Proc.Waiting (p : Proc) : Prop :=
  ∀ caller listenFd pr, p.accepting caller = some (listenFd, pr) →
    pr.ret < 0 ∧ pr.st.isEnableSysHook = true

/-- The segment of a waiting `accept` that begins when it is woken. -/
theorem Proc.Waiting.effect (h : p.Waiting) {caller : Nat} {listenFd : Fd} {pr : Progress}
    (hpr : p.accepting caller = some (listenFd, pr)) (natives : Stream' NativeAnswer)
    (wait : WaitAnswer) :
    let u := { p.view pr.st with
      natives := natives
      waits := Stream'.const { wait with table := p.table } }
    Effect u (acceptSettle listenFd (HookSys.acceptTurn listenFd { pr with st := u })) := by
  obtain ⟨hret, hon⟩ := h caller listenFd pr hpr
  exact effect_resume (p := { pr with st := _ }) hret hon rfl

theorem inStep_close_iff (h : p.InStep) {fd : Fd} (hstep : p.step (.close st fd) = some p') :
    p'.InStep ↔ p.Meets (.close st fd) := by
  obtain ⟨hrun, htable, -, -⟩ := Proc.commit_spec hstep
  obtain ⟨hclosed, hother⟩ := (does_close (p.view st) fd).run rfl hrun
  constructor
  · intro hin hoff htracked
    have hstill : Tracked p'.table fd := by
      rw [htable, tracked_close]
      exact ⟨htracked, fun hon => absurd (hoff.symm.trans hon) (by decide)⟩
    obtain ⟨f, hf, -⟩ := hin fd hstill
    rw [hclosed] at hf
    cases hf
  · intro hmeets
    refine h.commit hstep fun x hx => Or.inr ⟨List.not_mem_nil, ?_⟩
    rw [tracked_close] at hx
    have hne : x ≠ fd := by
      cases hon : st.isEnableSysHook with
      | true => exact hx.2 hon
      | false =>
          rintro rfl
          exact hmeets hon hx.1
    exact ⟨hx.1, .of_eq (hother x hne)⟩

theorem inStep_setfl_iff (h : p.InStep) {fd : Fd} {param : BitVec 32}
    (hstep : p.step (.setfl st fd param) = some p') :
    p'.InStep ↔ p.Meets (.setfl st fd param) := by
  obtain ⟨hrun, htable, -, -⟩ := Proc.commit_spec hstep
  have hdoes := (does_fcntlSetfl (p.view st) fd param).run rfl hrun
  constructor
  · intro hin hoff htracked
    have hflag : (p.view st).setflFlag fd param = param :=
      if_neg fun hand => absurd (hoff.symm.trans hand.1) (by decide)
    rw [hflag] at hdoes
    obtain ⟨f, hf, -⟩ := h fd htracked
    obtain ⟨f', hf', -, hnb⟩ := hin fd (by rw [htable, tracked_fcntlSetfl]; exact htracked)
    rcases hdoes with ⟨hneg, -⟩ | ⟨-, ret, hanswer⟩
    · exact absurd hneg (Int.not_lt.mpr htracked.1.1)
    · rcases Kernel.answer_setfl hanswer with ⟨hnone, -⟩ | ⟨g, -, hfiles⟩
      · rw [hnone] at hf
        cases hf
      · rw [hfiles, Function.update_self, Option.some.injEq] at hf'
        rw [← hf'] at hnb
        exact hnb
  · intro hmeets
    refine h.commit hstep fun x hx => Or.inr ⟨List.not_mem_nil, ?_⟩
    rw [tracked_fcntlSetfl] at hx
    refine ⟨hx, ?_⟩
    rcases hdoes with ⟨-, heq⟩ | ⟨-, ret, hanswer⟩
    · rw [heq]
      exact .refl _ x
    · by_cases heq : x = fd
      · -- a tracked descriptor is given `O_NONBLOCK`
        subst heq
        refine (Kernel.sets_of_answer hanswer ?_).keeps x
        unfold HookSys.setflFlag
        split
        · exact hasNonblock_or param
        · rename_i hand
          refine hmeets ?_ hx
          rw [← Bool.not_eq_true]
          exact fun hon => hand ⟨hon, getByFd_isSome.mpr hx⟩
      · rcases Kernel.answer_setfl hanswer with ⟨-, hk⟩ | ⟨g, -, hfiles⟩
        · rw [hk]
          exact .refl _ x
        · exact .of_eq (by rw [hfiles, Function.update_of_ne heq])

theorem inStep_openFile (h : p.InStep) {fd : Fd} {flags : BitVec 32}
    (hstep : p.step (.openFile fd flags) = some p') : p'.InStep := by
  simp only [Proc.step] at hstep
  split at hstep
  · rename_i hfree
    cases hstep
    intro x hx
    obtain ⟨f, hf, hserial, hnb⟩ := h x hx
    obtain ⟨f', hf', hserial', hnb'⟩ := Kernel.keeps_openFile hfree.2 flags x f hf
    exact ⟨f', hf', by rw [hserial', ← hserial], hnb' hnb⟩
  · cases hstep

/-- A socket created with hooks on is tracked and made non-blocking. -/
theorem socket_cases {nonblock : Bool} {r : Int × HookSys}
    (h : u.socket nonblock = some r) :
    (u.isEnableSysHook = true → r.1 < 0) ∧ r = u.native (.socket nonblock) ∨
      u.isEnableSysHook = true ∧ 0 ≤ r.1 ∧ r.1 = (u.native (.socket nonblock)).1 ∧
        Does (u.native (.socket nonblock)).2 r.2 (Kernel.Sets r.1) ∧
        ∀ x, Tracked r.2.table x → Tracked u.table x ∨ x = r.1 := by
  unfold HookSys.socket at h
  dsimp only at h
  generalize ha : u.native (.socket nonblock) = a at *
  split at h
  · rename_i hoff
    exact Or.inl ⟨fun hon => absurd hon hoff, (Option.some.inj h).symm⟩
  · rename_i hon
    rw [not_not] at hon
    split at h
    · rename_i hneg
      obtain rfl := Option.some.inj h
      exact Or.inl ⟨fun _ => hneg, rfl⟩
    · rename_i hpos
      split at h
      · cases h
      · obtain rfl := Option.some.inj h
        refine Or.inr ⟨hon, Int.not_lt.mp hpos, rfl, ?_, fun x hx => ?_⟩
        · exact does_track a.2 a.1
        · rw [tracked_nonblock, tracked_allocByFd] at hx
          rw [← show a.2.table = u.table by rw [← ha]; rfl]
          exact hx.imp_right And.left

theorem inStep_socket (h : p.InStep) {nonblock : Bool}
    (hstep : p.step (.socket st nonblock) = some p') : p'.InStep := by
  simp only [Proc.step, Option.bind_eq_some_iff] at hstep
  obtain ⟨r, hr, hcommit⟩ := hstep
  obtain ⟨hrun, -, -, -⟩ := Proc.commit_spec hcommit
  have hnative := Does.native (p.view st) (.socket nonblock)
  refine h.commit hcommit fun x hx => ?_
  rcases socket_cases hr with ⟨hneg, rfl⟩ | ⟨hon, hpos, hret, hdoes, htracked⟩
  · -- nothing is created
    have hnil : (if st.isEnableSysHook = true ∧
        0 ≤ ((p.view st).native (.socket nonblock)).1 then
          [((p.view st).native (.socket nonblock)).1] else []) = [] :=
      if_neg fun hand => absurd (hneg hand.1) (Int.not_lt.mpr hand.2)
    rw [hnil]
    refine Or.inr ⟨List.not_mem_nil, hx, ?_⟩
    rcases Kernel.answer_socket (hnative.run rfl hrun) with ⟨-, hk⟩ | ⟨-, hfree, flags, hk⟩
    · rw [hk]
      exact .refl _ x
    · rw [hk]
      exact Kernel.keeps_openFile hfree flags x
  · obtain ⟨k, hk, hsets⟩ := (hnative.trans hdoes).run rfl hrun
    rw [← hret] at hk
    have hcreated : st.isEnableSysHook = true ∧ 0 ≤ r.1 := ⟨hon, hpos⟩
    rw [if_pos hcreated, List.mem_singleton]
    rcases Kernel.answer_socket hk with ⟨hneg, -⟩ | ⟨-, hfree, flags, rfl⟩
    · exact absurd hneg (Int.not_lt.mpr hpos)
    · by_cases heq : x = r.1
      · refine Or.inl ⟨heq, ?_⟩
        rw [heq]
        exact hsets.set hpos (by simp [Kernel.openFile])
      · refine Or.inr ⟨heq, (htracked x hx).resolve_right heq, ?_⟩
        exact (Kernel.keeps_openFile hfree flags x).trans (hsets.keeps x)

/-- A segment of `accept` whose entries are created for what it accepts. -/
theorem Effect.commit (h : p.InStep) {o : Outcome} (heffect : Effect u o) (hlog : u.log = [])
    (htable : u.table = p.table) (hcommit : p.commit o.st o.acceptedFd = some p') :
    p'.InStep := by
  obtain ⟨hrun, -, -, -⟩ := Proc.commit_spec hcommit
  obtain ⟨hkeeps, hset⟩ := heffect.does.run hlog hrun
  refine h.commit hcommit fun x hx => ?_
  by_cases hmem : x ∈ o.acceptedFd
  · exact Or.inl ⟨hmem, hset x hmem⟩
  · refine Or.inr ⟨hmem, ?_, hkeeps x hx⟩
    rw [← htable]
    exact (heffect.tracked x hx).resolve_right hmem

/-- The calls that wait after a segment of `accept`. -/
theorem Proc.Waiting.setAccepting (h : p.Waiting) {o : Outcome}
    (ho : ∀ pr, o = .inl pr → pr.ret < 0 ∧ pr.st.isEnableSysHook = true) (caller : Nat)
    (listenFd : Fd) : (p.setAccepting caller listenFd o).Waiting := by
  intro caller' listenFd' pr hpr
  by_cases heq : caller' = caller
  · subst heq
    simp only [Proc.setAccepting, Function.update_self] at hpr
    cases o with
    | inl q =>
        cases hpr
        exact ho _ rfl
    | inr r => cases hpr
  · simp only [Proc.setAccepting, Function.update_of_ne heq] at hpr
    exact h caller' listenFd' pr hpr

theorem inStep_resume (h : p.InStep) (hwaiting : p.Waiting) {caller : Nat}
    {natives : Stream' NativeAnswer} {wait : WaitAnswer}
    (hstep : p.step (.resume caller natives wait) = some p') : p'.InStep := by
  simp only [Proc.step] at hstep
  split at hstep
  · cases hstep
  · rename_i listenFd pr hpr
    obtain ⟨p₁, hcommit, rfl⟩ := Option.map_eq_some_iff.mp hstep
    show p₁.InStep
    exact (hwaiting.effect hpr natives wait).commit h rfl rfl hcommit

/-- `accept` with hooks off is the native function. -/
theorem inStep_accept_off (h : p.InStep) (hoff : u.isEnableSysHook = false)
    (hlog : u.log = []) (htable : u.table = p.table) {listenFd : Fd}
    (hcommit : p.commit (acceptSettle listenFd (u.accept listenFd 0)).st [] = some p') :
    p'.InStep := by
  rw [HookSys.accept, if_pos (by simp [hoff])] at hcommit
  obtain ⟨hrun, -, -, -⟩ := Proc.commit_spec hcommit
  refine h.commit hcommit fun x hx => Or.inr ⟨List.not_mem_nil, htable ▸ hx, ?_⟩
  rcases Kernel.answer_accept ((Does.native u (.accept listenFd)).run hlog hrun) with
    ⟨-, hk⟩ | ⟨-, -, hfree, hk⟩
  · rw [hk]
    exact .refl _ x
  · rw [hk]
    exact Kernel.keeps_openFile hfree _ x

/-- `accept` with hooks on, on a descriptor that is tracked already. -/
theorem inStep_accept_tracked (h : p.InStep) (hon : u.isEnableSysHook = true)
    (hlog : u.log = []) (htable : u.table = p.table) {listenFd : Fd}
    (htracked : Tracked u.table listenFd)
    (hcommit : p.commit (acceptSettle listenFd (u.accept listenFd 0)).st
      (acceptSettle listenFd (u.accept listenFd 0)).acceptedFd = some p') : p'.InStep := by
  rw [accept_zero hon, listening_of_tracked htracked] at hcommit
  exact (settled_native u listenFd 0).effect.commit h hlog htable hcommit

/-- `accept` with hooks on, on a descriptor that it tracks from now on. -/
theorem inStep_accept_new_iff (h : p.InStep) (hon : u.isEnableSysHook = true)
    (hlog : u.log = []) (htable : u.table = p.table) {listenFd : Fd}
    (hnew : ¬ Tracked u.table listenFd)
    (hcommit : p.commit (acceptSettle listenFd (u.accept listenFd 0)).st
      (listenFd :: (acceptSettle listenFd (u.accept listenFd 0)).acceptedFd) = some p') :
    p'.InStep ↔ (-1 < listenFd ∧ listenFd < kSocketFds → p.kernel.files listenFd ≠ none) := by
  rw [accept_zero hon] at hcommit
  have hsettled := settled_native (u.listening listenFd) listenFd 0
  generalize acceptSettle listenFd _ = o at hcommit hsettled
  obtain ⟨hrun, htable', -, -⟩ := Proc.commit_spec hcommit
  obtain ⟨k, hsets, hkeeps, hset, hclosed⟩ :=
    ((does_listening_new hnew).trans hsettled.does).run hlog hrun
  constructor
  · intro hin hrange hnone
    have hlisten : Tracked p'.table listenFd := by
      rw [htable', hsettled.tracked, tracked_listening]
      exact Or.inl (Or.inr ⟨rfl, hrange.1, hrange.2, hnew⟩)
    obtain ⟨f, hf, -⟩ := hin listenFd hlisten
    rw [hclosed (hsets.closed listenFd hnone)] at hf
    cases hf
  · intro hopen
    refine h.commit hcommit fun x hx => ?_
    rw [hsettled.tracked, tracked_listening] at hx
    by_cases hmem : x ∈ o.acceptedFd
    · exact Or.inl ⟨List.mem_cons_of_mem _ hmem, hset x hmem⟩
    · by_cases heq : x = listenFd
      · subst heq
        have hrange : -1 < x ∧ x < kSocketFds := by
          rcases hx with (hx | ⟨-, hlo, hhi, -⟩) | ⟨-, hrange⟩
          · exact hx.1
          · exact ⟨hlo, hhi⟩
          · exact hrange
        refine Or.inl ⟨List.mem_cons_self, ?_⟩
        exact (hsets.set hrange.1 (hopen hrange)).keeps (hkeeps x)
      · refine Or.inr ⟨by simp [heq, hmem], ?_, (hsets.keeps x).trans (hkeeps x)⟩
        rw [← htable]
        rcases hx with (hx | ⟨hx, -⟩) | ⟨hx, -⟩
        · exact hx
        · exact absurd hx heq
        · exact absurd hx hmem

theorem inStep_accept_iff (h : p.InStep) {caller : Nat} {listenFd : Fd}
    (hstep : p.step (.accept caller st listenFd) = some p') :
    p'.InStep ↔ p.Meets (.accept caller st listenFd) := by
  simp only [Proc.step] at hstep
  split at hstep
  · cases hstep
  · obtain ⟨p₁, hcommit, rfl⟩ := Option.map_eq_some_iff.mp hstep
    show p₁.InStep ↔ _
    cases hon : st.isEnableSysHook with
    | false =>
        have hoff : (p.view st).isEnableSysHook = false := hon
        rw [hoff, if_neg (by decide)] at hcommit
        refine iff_of_true (inStep_accept_off h hoff rfl rfl hcommit) fun hon' => ?_
        exact absurd (hon.symm.trans hon') (by decide)
    | true =>
        have hon' : (p.view st).isEnableSysHook = true := hon
        rw [hon', if_pos rfl] at hcommit
        by_cases htracked : Tracked (p.view st).table listenFd
        · rw [if_neg fun hnone => getByFd_isNone.mp hnone htracked, List.nil_append] at hcommit
          exact iff_of_true (inStep_accept_tracked h hon' rfl rfl htracked hcommit)
            fun _ _ hnew => absurd htracked hnew
        · rw [if_pos (getByFd_isNone.mpr htracked)] at hcommit
          rw [inStep_accept_new_iff h hon' rfl rfl htracked hcommit]
          exact ⟨fun hopen _ hrange _ => hopen hrange,
            fun hmeets hrange => hmeets hon hrange htracked⟩

theorem Proc.Waiting.step (h : p.Waiting) {op : ProcOp} (hstep : p.step op = some p') :
    p'.Waiting := by
  have hcommit : ∀ {st : HookSys} {created : List Fd} {q : Proc},
      p.commit st created = some q → q.Waiting := by
    intro st created q hq caller listenFd pr hpr
    rw [(Proc.commit_spec hq).2.2.2] at hpr
    exact h caller listenFd pr hpr
  cases op with
  | socket st nonblock =>
      simp only [Proc.step, Option.bind_eq_some_iff] at hstep
      obtain ⟨r, -, hq⟩ := hstep
      exact hcommit hq
  | setfl st fd param => exact hcommit hstep
  | close st fd => exact hcommit hstep
  | openFile fd flags =>
      simp only [Proc.step] at hstep
      split at hstep
      · cases hstep
        exact h
      · cases hstep
  | accept caller st listenFd =>
      simp only [Proc.step] at hstep
      split at hstep
      · cases hstep
      · obtain ⟨q, hq, rfl⟩ := Option.map_eq_some_iff.mp hstep
        refine (hcommit hq).setAccepting (fun pr hpr => ?_) caller listenFd
        cases hon : (p.view st).isEnableSysHook with
        | false =>
            rw [HookSys.accept, if_pos (by simp [hon])] at hpr
            cases hpr
        | true =>
            rw [accept_zero hon] at hpr
            obtain ⟨hret, hhook⟩ := (settled_native _ listenFd 0).waiting pr hpr
            exact ⟨hret, by rw [hhook, listening_isEnableSysHook, hon]⟩
  | resume caller natives wait =>
      simp only [Proc.step] at hstep
      split at hstep
      · cases hstep
      · rename_i listenFd pr hpr
        obtain ⟨q, hq, rfl⟩ := Option.map_eq_some_iff.mp hstep
        refine (hcommit hq).setAccepting (fun pr' hpr' => ?_) caller listenFd
        obtain ⟨hret, hhook⟩ := (h.effect hpr natives wait).waiting pr' hpr'
        exact ⟨hret, hhook.trans (h caller listenFd pr hpr).2⟩

/-- From a state that is in step, a step leads to one exactly when it meets the
condition. -/
theorem inStep_step_iff (h : p.InStep) (hwaiting : p.Waiting) {op : ProcOp}
    (hstep : p.step op = some p') : p'.InStep ↔ p.Meets op := by
  cases op with
  | socket st nonblock => exact iff_of_true (inStep_socket h hstep) trivial
  | accept caller st listenFd => exact inStep_accept_iff h hstep
  | resume caller natives wait => exact iff_of_true (inStep_resume h hwaiting hstep) trivial
  | setfl st fd param => exact inStep_setfl_iff h hstep
  | close st fd => exact inStep_close_iff h hstep
  | openFile fd flags => exact iff_of_true (inStep_openFile h hstep) trivial

end Steps

/-- Whatever restricts the steps of a process, the table is in step with the kernel in all
the states it reaches exactly when all the steps it makes meet the condition. -/
theorem table_in_step_iff (kernel : Kernel) (ok : Proc → ProcOp → Prop) :
    (∀ p, Reaches Proc.step ok (.initial kernel) p → p.InStep) ↔
      ∀ p op p', Reaches Proc.step ok (.initial kernel) p → ok p op →
        p.step op = some p' → p.Meets op := by
  have hwaiting : ∀ p, Reaches Proc.step ok (.initial kernel) p → p.Waiting := by
    intro p hp
    refine hp.invariant (fun _ _ _ hpr => by cases hpr) ?_
    exact fun _ _ _ _ h _ hstep => h.step hstep
  constructor
  · intro h p op p' hp hok hstep
    exact (inStep_step_iff (h p hp) (hwaiting p hp) hstep).mp (h p' (hp.snoc hok hstep))
  · intro h p hp
    refine hp.invariant (fun fd hfd => ?_) ?_
    · cases hfd.2
    · intro p op p' hp hin hok hstep
      exact (inStep_step_iff hin (hwaiting p hp) hstep).mpr (h p op p' hp hok hstep)

/-- A caller with hooks on or off and the answers it is given. -/
def callerWith (hooks : Bool) (natives : Stream' NativeAnswer) : HookSys where
  task := (Sys.freshTask 0 none).submit { lateAttr with enableSysHook := hooks } 0
  table := fun _ => none
  errno := 0
  natives := natives
  waits := Stream'.const ⟨0, 0, 0, fun _ => none⟩
  log := []

/-- A task with hooks on creates socket 5, `main` closes it, and an unrelated file is
opened as 5: it is taken for the tracked socket. -/
theorem close_leaves_entry :
    ∃ p, Reaches Proc.step always (.initial ⟨fun _ => none, 0⟩) p ∧
      p.kernel.files 5 = some ⟨1, oRdwr⟩ ∧ Tracked p.table 5 ∧ ¬ p.InStep := by
  let opener := callerWith true
    (Stream'.cons ⟨5, 0⟩ (Stream'.cons ⟨2, 0⟩ (Stream'.const ⟨0, 0⟩)))
  let closer := callerWith false (Stream'.const ⟨0, 0⟩)
  refine ⟨_, (((Reaches.refl _).snoc (a := .socket opener false) trivial rfl).snoc
    (a := .close closer 5) trivial rfl).snoc (a := .openFile 5 oRdwr) trivial rfl, rfl, ?_, ?_⟩
  · exact ⟨by decide, rfl⟩
  · intro hin
    obtain ⟨f, hf, hborn, -⟩ := hin 5 ⟨by decide, rfl⟩
    cases hf
    cases hborn

end Libcr
