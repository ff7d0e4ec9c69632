import Libcr.Scheduler.Step

/-!
# The call discipline

The part of the scheduling invariant that speaks about the call stack and the
places of the coroutines only. The coroutines on the stack below its top have
called `coroutine_resume` and wait for it to return; the top runs; no coroutine
is on the stack twice. There are three ways a step changes this: the top pushes
another coroutine, the top leaves the stack, or the top moves to another place.
-/

namespace Libcr

namespace Pc

/-- The places of a coroutine that is on the call stack. -/
def onStack : Pc → Bool
  | .user _ | .newTask _ | .loopHead | .draining => true
  | _ => false

/-- The places of a coroutine that has control. -/
def isRunning : Pc → Bool
  | .user _ | .loopHead | .draining => true
  | _ => false

/-- The places inside a call of `coroutine_resume`. -/
def isCalling : Pc → Bool
  | .newTask _ | .draining => true
  | _ => false

/-- The places of the thread's own flow of control. -/
def ofMain : Pc → Bool
  | .user .main | .newTask .main | .loopHead | .draining => true
  | _ => false

/-- The places of a pooled coroutine. -/
def ofWorker : Pc → Bool
  | .waiting => true
  | .user ph | .newTask ph | .polling ph _ => ph ≠ .main
  | _ => false

theorem onStack_of_isRunning {p : Pc} (h : p.isRunning) : p.onStack := by
  cases p <;> simp_all [isRunning, onStack]

theorem onStack_of_isCalling {p : Pc} (h : p.isCalling) : p.onStack := by
  cases p <;> simp_all [isCalling, onStack]

theorem isRunning_landed {p : Pc} (h : p.isCalling) : p.landed.isRunning := by
  cases p <;> simp_all [isCalling, landed, isRunning]

@[simp] theorem ofMain_landed (p : Pc) : p.landed.ofMain = p.ofMain := by
  rcases p with _ | _ | _ | ⟨ph⟩ | ⟨ph⟩ | _ | _ | _ | _ <;> try rfl
  cases ph <;> rfl

@[simp] theorem ofWorker_landed (p : Pc) : p.landed.ofWorker = p.ofWorker := by
  cases p <;> rfl

@[simp] theorem landed_eq_waiting {p : Pc} : p.landed = .waiting ↔ p = .waiting := by
  cases p <;> simp [landed]

@[simp] theorem landed_eq_draining {p : Pc} : p.landed = .draining ↔ p = .draining := by
  cases p <;> simp [landed]

@[simp] theorem landed_eq_polling {p : Pc} {ph : Phase} {f : FrameId} :
    p.landed = .polling ph f ↔ p = .polling ph f := by
  cases p <;> simp [landed]

end Pc

/-- The kind of place a coroutine may be in. -/
def Pc.fits (p : Pc) : CoId → Bool
  | .main => p.ofMain
  | .worker _ => p.ofWorker

/-- The call stack and the places of the coroutines of a pool of `n` tasks. -/
structure Discipline (n : Nat) (stack : List CoId) (pcs : CoId → Pc) : Prop where
  bottom : stack.head? = some .main
  nodup : stack.Nodup
  mem_main : ∀ t, .worker t ∈ stack → t < n
  mem_iff : ∀ t < n, .worker t ∈ stack ↔ (pcs (.worker t)).onStack
  top : ∀ c, stack.getLast? = some c → (pcs c).isRunning
  below : ∀ c ∈ stack.dropLast, (pcs c).isCalling
  main_fits : (pcs .main).ofMain
  worker_fits : ∀ t < n, (pcs (.worker t)).ofWorker

namespace Discipline

variable {n : Nat} {stack : List CoId} {pcs : CoId → Pc}

theorem main_mem (h : Discipline n stack pcs) : .main ∈ stack := by
  have hb := h.bottom
  cases stack with
  | nil => simp at hb
  | cons a rest =>
      simp only [List.head?_cons, Option.some.injEq] at hb
      simp [hb]

theorem length_pos (h : Discipline n stack pcs) : 1 ≤ stack.length :=
  List.length_pos_of_mem h.main_mem

/-- A pooled coroutine on the top has a coroutine below it. -/
theorem two_le_length (h : Discipline n stack pcs) {t : Nat}
    (htop : stack.getLast? = some (.worker t)) : 2 ≤ stack.length := by
  have hb := h.bottom
  match stack with
  | [] => simp at hb
  | [a] => simp_all
  | a :: b :: rest => simp

theorem fits (h : Discipline n stack pcs) {c : CoId} (hc : c ∈ stack) :
    (pcs c).fits c := by
  cases c with
  | main => exact h.main_fits
  | worker t => exact h.worker_fits t (h.mem_main t hc)

/-- The top of the stack moves to another place where it has control. -/
theorem retag (h : Discipline n stack pcs) {c : CoId} {p : Pc}
    (htop : stack.getLast? = some c) (hrun : p.isRunning) (hfits : p.fits c) :
    Discipline n stack (Function.update pcs c p) where
  bottom := h.bottom
  nodup := h.nodup
  mem_main := h.mem_main
  mem_iff := by
    intro t ht
    by_cases hct : .worker t = c
    · subst hct
      simp [Pc.onStack_of_isRunning hrun, List.mem_of_getLast? htop]
    · simp [Function.update_of_ne hct, h.mem_iff t ht]
  top := by
    intro d hd
    rw [htop, Option.some.injEq] at hd
    simp [← hd, hrun]
  below := by
    intro d hd
    have hdc : d ≠ c := by
      intro hdc
      have hsplit := List.dropLast_append_getLast? c htop
      have hnodup := h.nodup
      rw [← hsplit, List.nodup_append] at hnodup
      exact hnodup.2.2 d hd c (List.mem_singleton_self c) hdc
    simp [Function.update_of_ne hdc, h.below d hd]
  main_fits := by
    by_cases hc : .main = c
    · subst hc
      simpa [Pc.fits] using hfits
    · simp [Function.update_of_ne hc, h.main_fits]
  worker_fits := by
    intro t ht
    by_cases hc : .worker t = c
    · subst hc
      simpa [Pc.fits] using hfits
    · simp [Function.update_of_ne hc, h.worker_fits t ht]

/-- The top calls `coroutine_resume` on a pooled coroutine that is not on the
stack and that goes on in user code. -/
theorem push (h : Discipline n stack pcs) {c : CoId} {p : Pc} {t : Nat} {ph : Phase}
    (htop : stack.getLast? = some c) (hcall : p.isCalling) (hfits : p.fits c)
    (ht : t < n) (hoff : (pcs (.worker t)).onStack = false) (hph : ph ≠ .main) :
    Discipline n (stack ++ [.worker t])
      (Function.update (Function.update pcs c p) (.worker t) (.user ph)) := by
  have hnot : .worker t ∉ stack := by
    rw [h.mem_iff t ht, hoff]
    simp
  have hne : c ≠ .worker t := by
    intro hc
    exact hnot (hc ▸ List.mem_of_getLast? htop)
  refine
    { bottom := ?_
      nodup := ?_
      mem_main := ?_
      mem_iff := ?_
      top := ?_
      below := ?_
      main_fits := ?_
      worker_fits := ?_ }
  · rw [List.head?_append, h.bottom]
    rfl
  · refine List.nodup_append.mpr ⟨h.nodup, by simp, ?_⟩
    intro a ha b hb hab
    rw [List.mem_singleton] at hb
    exact hnot (hb ▸ hab ▸ ha)
  · intro u hu
    rcases List.mem_append.mp hu with hu | hu
    · exact h.mem_main u hu
    · rw [List.mem_singleton, CoId.worker.injEq] at hu
      exact hu ▸ ht
  · intro u hu
    by_cases hut : u = t
    · subst hut
      simp [Pc.onStack]
    · have hut' : CoId.worker u ≠ .worker t := by simpa using hut
      by_cases huc : CoId.worker u = c
      · have hmem := List.mem_of_getLast? htop
        simp [huc, Function.update_of_ne hne, Pc.onStack_of_isCalling hcall, hmem]
      · simp [Function.update_of_ne huc, hut, h.mem_iff u hu]
  · intro d hd
    rw [List.getLast?_append, List.getLast?_singleton, Option.some_or,
      Option.some.injEq] at hd
    simp [← hd, Pc.isRunning]
  · intro d hd
    rw [List.dropLast_concat] at hd
    have hdt : d ≠ .worker t := fun hdt => hnot (hdt ▸ hd)
    by_cases hdc : d = c
    · simp [hdc, Function.update_of_ne hne, hcall]
    · have hmem : d ∈ stack.dropLast := by
        have hsplit := List.dropLast_append_getLast? c htop
        rw [← hsplit, List.mem_append, List.mem_singleton] at hd
        exact hd.resolve_right hdc
      simp [Function.update_of_ne hdt, Function.update_of_ne hdc, h.below d hmem]
  · rw [Function.update_of_ne (by simp)]
    by_cases hc : .main = c
    · subst hc
      simpa [Pc.fits] using hfits
    · simp [Function.update_of_ne hc, h.main_fits]
  · intro u hu
    by_cases hut : u = t
    · subst hut
      simp [Pc.ofWorker, hph]
    · have hut' : CoId.worker u ≠ .worker t := by simpa using hut
      rw [Function.update_of_ne hut']
      by_cases huc : .worker u = c
      · subst huc
        simpa [Pc.fits] using hfits
      · simp [Function.update_of_ne huc, h.worker_fits u hu]

/-- A pooled coroutine on the top leaves the stack, and `coroutine_resume`
returns to the coroutine below it. -/
theorem pop (h : Discipline n stack pcs) {t : Nat} {last : CoId} {p : Pc}
    (htop : stack.getLast? = some (.worker t))
    (hlast : stack.dropLast.getLast? = some last) (hoff : p.onStack = false)
    (hfits : p.ofWorker) :
    Discipline n stack.dropLast
      (Function.update (Function.update pcs (.worker t) p) last (pcs last).landed) := by
  have hsplit := List.dropLast_append_getLast? _ htop
  have hnodup := h.nodup
  rw [← hsplit, List.nodup_append] at hnodup
  have hnot : .worker t ∉ stack.dropLast := fun hmem =>
    hnodup.2.2 _ hmem _ (List.mem_singleton_self _) rfl
  have hlmem := List.mem_of_getLast? hlast
  have hlne : last ≠ .worker t := fun heq => hnot (heq ▸ hlmem)
  have hlcall := h.below last hlmem
  refine
    { bottom := ?_
      nodup := hnodup.1
      mem_main := ?_
      mem_iff := ?_
      top := ?_
      below := ?_
      main_fits := ?_
      worker_fits := ?_ }
  · have hb := h.bottom
    rw [← hsplit, List.head?_append] at hb
    cases hd : stack.dropLast with
    | nil => simp [hd] at hlast
    | cons a rest => simpa [hd] using hb
  · intro u hu
    exact h.mem_main u (List.dropLast_subset _ hu)
  · intro u hu
    by_cases hul : .worker u = last
    · rw [hul, Function.update_self]
      simp [Pc.onStack_of_isRunning (Pc.isRunning_landed hlcall), hlmem]
    · rw [Function.update_of_ne hul]
      by_cases hut : u = t
      · subst hut
        simp [hoff, hnot]
      · have hut' : CoId.worker u ≠ .worker t := by simpa using hut
        rw [Function.update_of_ne hut', ← h.mem_iff u hu, ← hsplit]
        simp [hut]
  · intro d hd
    rw [hlast, Option.some.injEq] at hd
    simp [← hd, Pc.isRunning_landed hlcall]
  · intro d hd
    have hd' := List.dropLast_subset _ hd
    have hdl : d ≠ last := by
      have hsplit' := List.dropLast_append_getLast? _ hlast
      have hnodup' := hnodup.1
      rw [← hsplit', List.nodup_append] at hnodup'
      exact fun heq => hnodup'.2.2 d hd last (List.mem_singleton_self _) heq
    have hdt : d ≠ .worker t := fun heq => hnot (heq ▸ hd')
    simp [Function.update_of_ne hdl, Function.update_of_ne hdt, h.below d hd']
  · by_cases hml : .main = last
    · rw [← hml, Function.update_self, Pc.ofMain_landed]
      exact h.main_fits
    · rw [Function.update_of_ne hml, Function.update_of_ne (by simp)]
      exact h.main_fits
  · intro u hu
    by_cases hul : .worker u = last
    · rw [hul, Function.update_self, Pc.ofWorker_landed, ← hul]
      exact h.worker_fits u hu
    · rw [Function.update_of_ne hul]
      by_cases hut : u = t
      · subst hut
        simpa using hfits
      · have hut' : CoId.worker u ≠ .worker t := by simpa using hut
        rw [Function.update_of_ne hut']
        exact h.worker_fits u hu

end Discipline

end Libcr
