import Libcr.Foundations.Runs
import Libcr.Foundations.Threaded
import Libcr.Timer.Lists

/-!
# The timer lists in memory

`popHead`, `join`, `add_tail` and `remove_from_link` of `epoll.c`, pointer by pointer: the
`prev`, `next` and `parent` fields of the items and the `head` and `tail` fields of the
lists. A well-formed memory holds a family of sequences, and each operation does to the
sequences what its name says, whatever list an item is in and wherever in the list it is.

The model of the wheel works on the sequences; it loses nothing, since every run of
operations on the sequences is one of the operations in memory.
-/

namespace Libcr

/-- The list fields of all `timer_item_t` and `timer_list_t` objects. A null pointer is
`none`. -/
structure ListHeap (ι α : Type) where
  prev : α → Option α
  next : α → Option α
  parent : α → Option ι
  head : ι → Option α
  tail : ι → Option α

namespace ListHeap

variable {ι α : Type} [DecidableEq ι] [DecidableEq α]

/-- All fields zero. -/
def zeroed : ListHeap ι α where
  prev := fun _ => none
  next := fun _ => none
  parent := fun _ => none
  head := fun _ => none
  tail := fun _ => none

/-- `popHead`. -/
def popHead (h : ListHeap ι α) (list : ι) : ListHeap ι α :=
  match h.head list with
  | none => h
  | some item =>
      let h :=
        if h.head list = h.tail list then
          { h with
            head := Function.update h.head list none
            tail := Function.update h.tail list none }
        else { h with head := Function.update h.head list (h.next item) }
      let h := { h with
        prev := Function.update h.prev item none
        next := Function.update h.next item none
        parent := Function.update h.parent item none }
      { h with prev := store h.prev (h.head list) none }

/-- The loop of `join` that rewrites the parents, for at most `fuel` items. -/
def adopt (list : ι) : Nat → ListHeap ι α → Option α → Option (ListHeap ι α)
  | _, h, none => some h
  | 0, _, some _ => none
  | fuel + 1, h, some item =>
      let h := { h with parent := Function.update h.parent item (some list) }
      adopt list fuel h (h.next item)

/-- `join`. -/
def join (fuel : Nat) (h : ListHeap ι α) (list other : ι) : Option (ListHeap ι α) :=
  match h.head other with
  | none => some h
  | some item =>
      (adopt list fuel h (some item)).map fun h =>
        let h :=
          match h.tail list with
          | some last =>
              let h := { h with next := Function.update h.next last (some item) }
              let h := { h with prev := Function.update h.prev item (some last) }
              { h with tail := Function.update h.tail list (h.tail other) }
          | none =>
              { h with
                head := Function.update h.head list (h.head other)
                tail := Function.update h.tail list (h.tail other) }
        { h with
          head := Function.update h.head other none
          tail := Function.update h.tail other none }

/-- `add_tail`. -/
def addTail (h : ListHeap ι α) (list : ι) (item : α) : ListHeap ι α :=
  if (h.parent item).isSome then h
  else
    let h :=
      match h.tail list with
      | some last =>
          let h := { h with next := Function.update h.next last (some item) }
          let h := { h with next := Function.update h.next item none }
          let h := { h with prev := Function.update h.prev item (some last) }
          { h with tail := Function.update h.tail list (some item) }
      | none =>
          { h with
            head := Function.update h.head list (some item)
            tail := Function.update h.tail list (some item)
            next := Function.update h.next item none
            prev := Function.update h.prev item none }
    { h with parent := Function.update h.parent item (some list) }

/-- `remove_from_link`. The last branch follows `item->next` without a test. -/
def removeFromLink (h : ListHeap ι α) (item : α) : Option (ListHeap ι α) :=
  match h.parent item with
  | none => some h
  | some list =>
      let h :=
        if h.head list = some item then
          let h := { h with head := Function.update h.head list (h.next item) }
          { h with prev := store h.prev (h.head list) none }
        else { h with next := store h.next (h.prev item) (h.next item) }
      let h :=
        if h.tail list = some item then
          let h := { h with tail := Function.update h.tail list (h.prev item) }
          some { h with next := store h.next (h.tail list) none }
        else (h.next item).map fun n =>
          { h with prev := Function.update h.prev n (h.prev item) }
      h.map fun h => { h with
        prev := Function.update h.prev item none
        next := Function.update h.next item none
        parent := Function.update h.parent item none }

end ListHeap

/-- One call of a list function. -/
inductive ListOp (ι α : Type)
  | addTail (list : ι) (item : α)
  | popHead (list : ι)
  | join (list other : ι)
  | removeFromLink (item : α)

namespace ListOp

variable {ι α : Type}

/-- `join` is given two different lists. -/
def Proper : ListOp ι α → Prop
  | .join list other => list ≠ other
  | _ => True

variable [DecidableEq ι] [DecidableEq α]

/-- The call in memory, where a loop may take `fuel` turns; `none` for a loop that takes
more and for a null pointer that is followed. -/
def run (fuel : Nat) (h : ListHeap ι α) : ListOp ι α → Option (ListHeap ι α)
  | .addTail list item => some (h.addTail list item)
  | .popHead list => some (h.popHead list)
  | .join list other => h.join fuel list other
  | .removeFromLink item => h.removeFromLink item

open Classical in
/-- What the call should do to a family of sequences. -/
noncomputable def apply (seq : ι → List α) : ListOp ι α → ι → List α
  | .addTail list item =>
      if ∃ l, item ∈ seq l then seq else Function.update seq list (seq list ++ [item])
  | .popHead list => Function.update seq list (seq list).tail
  | .join list other =>
      Function.update (Function.update seq list (seq list ++ seq other)) other []
  | .removeFromLink item => fun l => (seq l).erase item

/-- How often the loop of the call turns: `join` rewrites the parent of each item it moves. -/
def turns (seq : ι → List α) : ListOp ι α → Nat
  | .join _ other => (seq other).length
  | _ => 0

end ListOp

namespace ListHeap

variable {ι α : Type}

/-- The memory holds a family of sequences: the ends of a list are those of its sequence,
neighbours point to each other, the parent of an item is the one list that holds it, and
the fields of an item in no list are null. -/
structure WellFormed (h : ListHeap ι α) (seq : ι → List α) : Prop where
  head : ∀ l, h.head l = (seq l).head?
  tail : ∀ l, h.tail l = (seq l).getLast?
  threaded : ∀ l, Threaded h.prev h.next none (seq l) none
  parent_iff : ∀ l a, h.parent a = some l ↔ a ∈ seq l
  nodup : ∀ l, (seq l).Nodup
  unlinked : ∀ a, h.parent a = none → h.prev a = none ∧ h.next a = none

namespace WellFormed

variable {h h' : ListHeap ι α} {seq : ι → List α}

theorem zeroed : (zeroed : ListHeap ι α).WellFormed fun _ => [] where
  head := fun _ => rfl
  tail := fun _ => rfl
  threaded := fun _ => trivial
  parent_iff := by simp [ListHeap.zeroed]
  nodup := fun _ => List.nodup_nil
  unlinked := fun _ _ => ⟨rfl, rfl⟩

theorem notMem_of_unlinked (hw : h.WellFormed seq) {a : α} (ha : h.parent a = none) (l : ι) :
    a ∉ seq l := by
  rw [← hw.parent_iff, ha]
  simp

/-- An item is in one list only. -/
theorem eq_of_mem (hw : h.WellFormed seq) {a : α} {l m : ι} (hl : a ∈ seq l)
    (hm : a ∈ seq m) : l = m := by
  rw [← hw.parent_iff] at hl hm
  exact Option.some.inj (hl.symm.trans hm)

variable [DecidableEq ι]

/-- One list is changed and the items of the others are left alone. -/
theorem replace (hw : h.WellFormed seq) {l : ι} {xs : List α}
    (hhead : h'.head = Function.update h.head l xs.head?)
    (htail : h'.tail = Function.update h.tail l xs.getLast?)
    (hthreaded : Threaded h'.prev h'.next none xs none)
    (hframe : ∀ m ≠ l, ∀ a ∈ seq m, h'.prev a = h.prev a ∧ h'.next a = h.next a)
    (hparent : ∀ a, h'.parent a = some l ↔ a ∈ xs)
    (hothers : ∀ m ≠ l, ∀ a, h'.parent a = some m ↔ h.parent a = some m)
    (hnodup : xs.Nodup)
    (hunlinked : ∀ a, h'.parent a = none → h'.prev a = none ∧ h'.next a = none) :
    h'.WellFormed (Function.update seq l xs) where
  head := by
    refine (Function.forall_update_iff seq fun m ys => h'.head m = ys.head?).mpr ⟨?_, ?_⟩
    · rw [hhead, Function.update_self]
    · intro m hm
      rw [hhead, Function.update_of_ne hm, hw.head]
  tail := by
    refine (Function.forall_update_iff seq fun m ys => h'.tail m = ys.getLast?).mpr ⟨?_, ?_⟩
    · rw [htail, Function.update_self]
    · intro m hm
      rw [htail, Function.update_of_ne hm, hw.tail]
  threaded := by
    refine (Function.forall_update_iff seq fun _ ys => Threaded h'.prev h'.next none ys none).mpr
      ⟨hthreaded, ?_⟩
    intro m hm
    exact (hw.threaded m).congr (fun a ha => (hframe m hm a ha).1)
      fun a ha => (hframe m hm a ha).2
  parent_iff := by
    intro m a
    refine (Function.forall_update_iff seq fun m ys => h'.parent a = some m ↔ a ∈ ys).mpr
      ⟨hparent a, ?_⟩ m
    intro m hm
    rw [hothers m hm, hw.parent_iff]
  nodup := (Function.forall_update_iff seq fun _ ys => ys.Nodup).mpr
    ⟨hnodup, fun m _ => hw.nodup m⟩
  unlinked := hunlinked

variable [DecidableEq α]

/-- `add_tail` on an item that is in no list. -/
theorem append (hw : h.WellFormed seq) (l : ι) {a : α} (ha : h.parent a = none) :
    (h.addTail l a).WellFormed (Function.update seq l (seq l ++ [a])) := by
  have hnot := hw.notMem_of_unlinked ha
  have heq : h.addTail l a =
      { prev := Function.update h.prev a (seq l).getLast?
        next := Function.update (store h.next (seq l).getLast? (some a)) a none
        parent := Function.update h.parent a (some l)
        head := Function.update h.head l (seq l ++ [a]).head?
        tail := Function.update h.tail l (seq l ++ [a]).getLast? } := by
    have hhead := hw.head l
    unfold addTail
    rw [if_neg (by simp [ha]), hw.tail]
    rcases (seq l).eq_nil_or_concat' with hnil | ⟨init, z, hz⟩
    · simp [hnil, store]
    · rw [hz] at hhead
      simpa [hz, store] using hhead
  have hne : ∀ {m b}, b ∈ seq m → b ≠ a := by
    rintro m b hb rfl
    exact hnot m hb
  have hnodup : (seq l ++ [a]).Nodup := by
    refine List.nodup_append.mpr ⟨hw.nodup l, List.nodup_singleton a, ?_⟩
    intro b hb c hc
    rw [List.mem_singleton.mp hc]
    exact hne hb
  rw [heq]
  refine hw.replace rfl rfl ?_ ?_ ?_ ?_ ?_ ?_
  · have hlast : (seq l).getLast? ≠ some a := fun hb => hnot l (List.mem_of_getLast? hb)
    have hsingle : Threaded h.prev h.next none [a] none :=
      ⟨(hw.unlinked a ha).1, (hw.unlinked a ha).2, trivial⟩
    refine (hw.threaded l).join hsingle hnodup (fun _ _ => rfl) ?_
    intro b _
    by_cases hb : b = a
    · dsimp only
      rw [hb, store_of_ne hlast, Function.update_self, (hw.unlinked a ha).2]
    · exact Function.update_of_ne hb _ _
  · intro m hm b hb
    have hlast : (seq l).getLast? ≠ some b := fun hb' =>
      hm (hw.eq_of_mem hb (List.mem_of_getLast? hb'))
    simp [Function.update_of_ne (hne hb), store_of_ne hlast]
  · intro b
    by_cases hb : b = a
    · simp [hb]
    · simp [hw.parent_iff, hb]
  · intro m hm b
    by_cases hb : b = a
    · simp [hb, ha, Ne.symm hm]
    · simp [Function.update_of_ne hb]
  · exact hnodup
  · intro b hb
    have hba : b ≠ a := by
      rintro rfl
      simp at hb
    have hold : h.parent b = none := by simpa [Function.update_of_ne hba] using hb
    have hlast : (seq l).getLast? ≠ some b := fun hb' =>
      hw.notMem_of_unlinked hold l (List.mem_of_getLast? hb')
    simpa [Function.update_of_ne hba, store_of_ne hlast] using hw.unlinked b hold

/-- An item is taken out of a list: its neighbours, or the ends of the list, are joined, and
its own fields are cleared. -/
theorem cut (hw : h.WellFormed seq) {l : ι} {a : α} {xs ys : List α}
    (hseq : seq l = xs ++ a :: ys)
    (hprev : h'.prev = Function.update (store h.prev ys.head? xs.getLast?) a none)
    (hnext : h'.next = Function.update (store h.next xs.getLast? ys.head?) a none)
    (hparent : h'.parent = Function.update h.parent a none)
    (hhead : h'.head = Function.update h.head l (xs ++ ys).head?)
    (htail : h'.tail = Function.update h.tail l (xs ++ ys).getLast?) :
    h'.WellFormed (Function.update seq l (xs ++ ys)) := by
  have hthreaded := hw.threaded l
  have hnodup := hw.nodup l
  rw [hseq, threaded_append] at hthreaded
  rw [hseq, List.nodup_middle, List.nodup_cons] at hnodup
  obtain ⟨hxs, -, -, hys⟩ := hthreaded
  obtain ⟨hnot, hnodup⟩ := hnodup
  have hmem : ∀ b, b ∈ seq l ↔ b = a ∨ b ∈ xs ++ ys := by
    intro b
    rw [hseq]
    simp only [List.mem_append, List.mem_cons]
    tauto
  have hne : ∀ {b}, b ∈ xs ++ ys → b ≠ a := by
    rintro b hb rfl
    exact hnot hb
  -- A store through the end of one part does not touch the other part.
  have hfirst : ∀ {b}, ys.head? = some b → b ∈ ys := fun hb => List.mem_of_head? hb
  have hlast : ∀ {b}, xs.getLast? = some b → b ∈ xs := fun hb => List.mem_of_getLast? hb
  refine hw.replace hhead htail ?_ ?_ ?_ ?_ hnodup ?_
  · refine hxs.join hys hnodup ?_ ?_
    · intro b hb
      rw [hprev, Function.update_of_ne (hne hb)]
    · intro b hb
      rw [hnext, Function.update_of_ne (hne hb)]
  · intro m hm b hb
    have hout : b ∉ seq l := fun hb' => hm (hw.eq_of_mem hb hb')
    rw [hmem, not_or, List.mem_append, not_or] at hout
    rw [hprev, hnext, Function.update_of_ne hout.1, Function.update_of_ne hout.1,
      store_of_ne fun hb' => hout.2.2 (hfirst hb'), store_of_ne fun hb' => hout.2.1 (hlast hb')]
    exact ⟨rfl, rfl⟩
  · intro b
    by_cases hb : b = a
    · simpa [hparent, hb] using hnot
    · rw [hparent, Function.update_of_ne hb, hw.parent_iff, hmem, or_iff_right hb]
  · intro m hm b
    by_cases hb : b = a
    · have hin : h.parent a = some l := (hw.parent_iff l a).mpr ((hmem a).mpr (Or.inl rfl))
      simp [hparent, hb, hin, Ne.symm hm]
    · rw [hparent, Function.update_of_ne hb]
  · intro b hb
    rw [hprev, hnext]
    by_cases hba : b = a
    · simp [hba]
    · rw [hparent, Function.update_of_ne hba] at hb
      have hout := hw.notMem_of_unlinked hb l
      rw [hmem, not_or, List.mem_append, not_or] at hout
      rw [Function.update_of_ne hba, Function.update_of_ne hba,
        store_of_ne fun hb' => hout.2.2 (hfirst hb'),
        store_of_ne fun hb' => hout.2.1 (hlast hb')]
      exact hw.unlinked b hb

/-- `popHead`. -/
theorem popHead (hw : h.WellFormed seq) (l : ι) :
    (h.popHead l).WellFormed (Function.update seq l (seq l).tail) := by
  cases hseq : seq l with
  | nil =>
      have hsame : h.popHead l = h := by
        unfold ListHeap.popHead
        rw [hw.head, hseq]
        rfl
      rw [hsame, List.tail_nil, ← hseq, Function.update_eq_self]
      exact hw
  | cons a rest =>
      have hthreaded := hw.threaded l
      have hnodup := hw.nodup l
      have hhead := hw.head l
      have htail := hw.tail l
      rw [hseq] at hthreaded hnodup hhead htail
      have heq : h.popHead l =
          { prev := Function.update (store h.prev rest.head? none) a none
            next := Function.update h.next a none
            parent := Function.update h.parent a none
            head := Function.update h.head l rest.head?
            tail := Function.update h.tail l rest.getLast? } := by
        unfold ListHeap.popHead
        rw [hhead, htail]
        cases rest with
        | nil => simp [store]
        | cons b rest =>
            have hab : b ≠ a := by
              rintro rfl
              simp at hnodup
            have hlast : some a ≠ (b :: rest).getLast? := by
              intro hlast
              exact (List.nodup_cons.mp hnodup).1 (List.mem_of_getLast? hlast.symm)
            have hforth : h.next a = some b := hthreaded.2.1
            rw [List.getLast?_cons_cons] at htail ⊢
            rw [List.head?_cons, ← htail, Function.update_eq_self]
            rw [← htail] at hlast
            dsimp only
            rw [if_neg hlast]
            simp [store, hforth, Function.update_comm hab]
      rw [heq]
      have hsplit : seq l = [] ++ a :: rest := hseq
      exact hw.cut hsplit rfl rfl rfl rfl rfl

/-- `remove_from_link` on an item that is in a list. -/
theorem unlink (hw : h.WellFormed seq) {l : ι} {a : α} {xs ys : List α}
    (hseq : seq l = xs ++ a :: ys) :
    ∃ h', h.removeFromLink a = some h' ∧
      h'.WellFormed (Function.update seq l (xs ++ ys)) := by
  have hthreaded := hw.threaded l
  have hnodup := hw.nodup l
  have hhead := hw.head l
  have htail := hw.tail l
  have hparent : h.parent a = some l := (hw.parent_iff l a).mpr (by simp [hseq])
  rw [hseq, threaded_append] at hthreaded
  rw [hseq] at hnodup hhead htail
  obtain ⟨-, hback, hforth, -⟩ := hthreaded
  rw [Option.or_none] at hback hforth
  have hnot : a ∉ xs ++ ys := (List.nodup_cons.mp (List.nodup_middle.mp hnodup)).1
  have heq : h.removeFromLink a = some
      { prev := Function.update (store h.prev ys.head? xs.getLast?) a none
        next := Function.update (store h.next xs.getLast? ys.head?) a none
        parent := Function.update h.parent a none
        head := Function.update h.head l (xs ++ ys).head?
        tail := Function.update h.tail l (xs ++ ys).getLast? } := by
    -- An end of the list that is not at the item stays where it is.
    have hfirst : xs ≠ [] → h.head l ≠ some a ∧
        Function.update h.head l (xs ++ ys).head? = h.head := by
      intro hxs
      obtain ⟨b, rest, rfl⟩ := List.exists_cons_of_ne_nil hxs
      rw [Function.update_eq_self_iff, hhead]
      refine ⟨?_, rfl⟩
      rintro hb
      exact hnot (List.mem_append_left ys (List.mem_of_head? hb))
    have hlast : ys ≠ [] → h.tail l ≠ some a ∧
        Function.update h.tail l (xs ++ ys).getLast? = h.tail := by
      intro hys
      obtain ⟨b, rest, rfl⟩ := List.exists_cons_of_ne_nil hys
      have hsame : (xs ++ a :: b :: rest).getLast? = (xs ++ b :: rest).getLast? := by simp
      rw [Function.update_eq_self_iff, htail, hsame]
      exact ⟨fun hb => hnot (List.mem_of_getLast? hb), rfl⟩
    unfold ListHeap.removeFromLink
    rw [hparent]
    rcases xs.eq_nil_or_concat' with rfl | ⟨init, z, rfl⟩
    · cases ys with
      | nil => simp_all [store]
      | cons b rest =>
          obtain ⟨htail', hsame⟩ := hlast (by simp)
          rw [hsame]
          simp_all [store]
    · obtain ⟨hhead', hsame⟩ := hfirst (by simp)
      rw [hsame]
      cases ys with
      | nil => simp_all [store]
      | cons b rest =>
          obtain ⟨htail', hsame⟩ := hlast (by simp)
          rw [hsame]
          simp_all [store]
  exact ⟨_, heq, hw.cut hseq rfl rfl rfl rfl rfl⟩

/-- `remove_from_link`: the item leaves the list that holds it. -/
theorem removeFromLink (hw : h.WellFormed seq) (a : α) :
    ∃ h', h.removeFromLink a = some h' ∧ h'.WellFormed fun l => (seq l).erase a := by
  cases hparent : h.parent a with
  | none =>
      refine ⟨h, by simp [ListHeap.removeFromLink, hparent], ?_⟩
      have hsame : (fun l => (seq l).erase a) = seq := by
        funext l
        exact List.erase_of_not_mem (hw.notMem_of_unlinked hparent l)
      rwa [hsame]
  | some l =>
      obtain ⟨xs, ys, hseq⟩ := List.append_of_mem ((hw.parent_iff l a).mp hparent)
      obtain ⟨h', hrun, hw'⟩ := hw.unlink hseq
      refine ⟨h', hrun, ?_⟩
      have hnodup := hw.nodup l
      rw [hseq, List.nodup_middle, List.nodup_cons, List.mem_append, not_or] at hnodup
      have herase : (fun m => (seq m).erase a) = Function.update seq l (xs ++ ys) := by
        funext m
        by_cases hm : m = l
        · subst hm
          rw [Function.update_self, hseq, List.erase_append_right _ hnodup.1.1,
            List.erase_cons_head]
        · rw [Function.update_of_ne hm]
          refine List.erase_of_not_mem fun ha => hm ?_
          exact hw.eq_of_mem ha ((hw.parent_iff l a).mp hparent)
      rwa [herase]

omit [DecidableEq ι] in
/-- The loop of `join` makes the list the parent of all items of the chain it walks. -/
theorem adopt_eq (l : ι) {xs : List α} {fuel : Nat} (hfuel : xs.length ≤ fuel)
    {p : Option α} (hchain : Chain h.next p xs) :
    h.adopt l fuel p = some { h with
      parent := fun b => if b ∈ xs then some l else h.parent b } := by
  induction xs generalizing h fuel p with
  | nil =>
      obtain rfl : p = none := hchain
      cases fuel <;> simp [adopt]
  | cons a rest ih =>
      obtain ⟨rfl, hrest⟩ := hchain
      obtain ⟨fuel, rfl⟩ : ∃ k, fuel = k + 1 := ⟨fuel - 1, by grind⟩
      rw [adopt]
      refine (ih (h := { h with parent := Function.update h.parent a (some l) })
        (by simpa using hfuel) hrest).trans ?_
      congr 2
      funext b
      by_cases hb : b = a
      · simp [hb]
      · simp [hb]

/-- What holds of every member of a family in which two have been replaced. -/
theorem forall_update_update {β : Type} {P : ι → β → Prop} {f : ι → β} {l m : ι} {x y : β}
    (hm : P m y) (hl : P l x) (hothers : ∀ k, k ≠ m → k ≠ l → P k (f k)) (k : ι) :
    P k (Function.update (Function.update f l x) m y k) := by
  refine (Function.forall_update_iff _ P).mpr ⟨hm, ?_⟩ k
  intro k hkm
  by_cases hkl : k = l
  · subst hkl
    rwa [Function.update_self]
  · rw [Function.update_of_ne hkl]
    exact hothers k hkm hkl

/-- What `join` leaves in memory. -/
theorem join_eq (hw : h.WellFormed seq) {l m : ι} {fuel : Nat}
    (hfuel : (seq m).length ≤ fuel) {a : α} {rest : List α} (hseq : seq m = a :: rest) :
    h.join fuel l m = some
      { prev := Function.update h.prev a (seq l).getLast?
        next := store h.next (seq l).getLast? (some a)
        parent := fun b => if b ∈ seq m then some l else h.parent b
        head := Function.update (Function.update h.head l (seq l ++ seq m).head?) m none
        tail := Function.update (Function.update h.tail l (seq l ++ seq m).getLast?) m none } := by
  have hhead := hw.head m
  have htail := hw.tail m
  have hfirst := hw.head l
  have hlast := hw.tail l
  have hchain := (hw.threaded m).chain
  rw [hseq] at hhead htail hchain
  unfold ListHeap.join
  rw [hhead]
  have hadopt := adopt_eq l (hseq ▸ hfuel) hchain
  rw [List.head?_cons] at hadopt
  dsimp only [List.head?_cons]
  rw [hadopt]
  rcases (seq l).eq_nil_or_concat' with hnil | ⟨init, z, hz⟩
  · have hback : h.prev a = none := by
      have hthreaded := hw.threaded m
      rw [hseq] at hthreaded
      exact hthreaded.1
    have hsame : Function.update h.prev a none = h.prev := by
      rw [Function.update_eq_self_iff, hback]
    rw [hnil] at hlast
    simp [hlast, hhead, htail, hnil, hseq, store, hsame]
  · rw [hz] at hfirst hlast
    have hsame : Function.update h.head l (init ++ [z] ++ a :: rest).head? = h.head := by
      rw [Function.update_eq_self_iff, hfirst]
      simp
    have hend : (init ++ [z] ++ a :: rest).getLast? = (a :: rest).getLast? := by
      rw [List.getLast?_append_cons]
    rw [hz, hseq, hsame, hend]
    simp [hlast, htail, store]

/-- A nonempty list is put behind another one. -/
theorem splice (hw : h.WellFormed seq) {l m : ι} (hne : l ≠ m) {a : α} {rest : List α}
    (hseq : seq m = a :: rest)
    (hprev : h'.prev = Function.update h.prev a (seq l).getLast?)
    (hnext : h'.next = store h.next (seq l).getLast? (some a))
    (hparent : h'.parent = fun b => if b ∈ seq m then some l else h.parent b)
    (hhead : h'.head = Function.update (Function.update h.head l (seq l ++ seq m).head?) m none)
    (htail : h'.tail =
      Function.update (Function.update h.tail l (seq l ++ seq m).getLast?) m none) :
    h'.WellFormed (Function.update (Function.update seq l (seq l ++ seq m)) m []) := by
  have hmem : a ∈ seq m := by simp [hseq]
  have hdisj : ∀ {k b}, k ≠ m → b ∈ seq k → b ∉ seq m := fun hk hb hb' =>
    hk (hw.eq_of_mem hb hb')
  -- A store through an end of one of the two lists does not touch another list.
  have hfirst : ∀ {k b}, k ≠ m → b ∈ seq k → h'.prev b = h.prev b := by
    intro k b hk hb
    rw [hprev, Function.update_of_ne]
    rintro rfl
    exact hdisj hk hb hmem
  have hlast : ∀ {k b}, k ≠ l → b ∈ seq k → h'.next b = h.next b := by
    intro k b hk hb
    rw [hnext, store_of_ne]
    exact fun hb' => hk (hw.eq_of_mem hb (List.mem_of_getLast? hb'))
  have hnodup : (seq l ++ seq m).Nodup := by
    refine List.nodup_append.mpr ⟨hw.nodup l, hw.nodup m, ?_⟩
    rintro b hb c hc rfl
    exact hdisj hne hb hc
  constructor
  case head =>
    refine forall_update_update (P := fun k xs => h'.head k = List.head? xs) ?_ ?_ ?_
    · simp [hhead]
    · simp [hhead, hne]
    · intro k hkm hkl
      simp [hhead, hkm, hkl, hw.head]
  case tail =>
    refine forall_update_update (P := fun k xs => h'.tail k = List.getLast? xs) ?_ ?_ ?_
    · simp [htail]
    · simp [htail, hne]
    · intro k hkm hkl
      simp [htail, hkm, hkl, hw.tail]
  case threaded =>
    refine forall_update_update (P := fun _ xs => Threaded h'.prev h'.next none xs none)
      trivial ?_ ?_
    · refine (hw.threaded l).join (hw.threaded m) hnodup ?_ ?_
      · intro b _
        rw [hprev, hseq]
        rfl
      · intro b _
        rw [hnext, hseq]
        rfl
    · intro k hkm hkl
      exact (hw.threaded k).congr (fun b hb => hfirst hkm hb) fun b hb => hlast hkl hb
  case parent_iff =>
    intro k b
    refine forall_update_update (P := fun k xs => h'.parent b = some k ↔ b ∈ xs) ?_ ?_ ?_ k
    · by_cases hb : b ∈ seq m
      · simp [hparent, hb, hne]
      · simp [hparent, hb, hw.parent_iff]
    · by_cases hb : b ∈ seq m
      · simp [hparent, hb]
      · simp [hparent, hb, hw.parent_iff]
    · intro k hkm hkl
      by_cases hb : b ∈ seq m
      · have hout : b ∉ seq k := fun hb' => hdisj hkm hb' hb
        simp [hparent, hb, hout, Ne.symm hkl]
      · simp [hparent, hb, hw.parent_iff]
  case nodup =>
    refine forall_update_update (P := fun _ xs => List.Nodup xs) List.nodup_nil ?_ ?_
    · exact hnodup
    · exact fun k _ _ => hw.nodup k
  case unlinked =>
    intro b hb
    have hout : b ∉ seq m := by
      intro hin
      simp [hparent, hin] at hb
    have hold : h.parent b = none := by simpa [hparent, hout] using hb
    have hba : b ≠ a := by
      rintro rfl
      exact hout hmem
    have hend : (seq l).getLast? ≠ some b := fun hb' =>
      hw.notMem_of_unlinked hold l (List.mem_of_getLast? hb')
    rw [hprev, hnext, Function.update_of_ne hba, store_of_ne hend]
    exact hw.unlinked b hold

/-- `join` of two different lists. -/
theorem join (hw : h.WellFormed seq) {l m : ι} (hne : l ≠ m) {fuel : Nat}
    (hfuel : (seq m).length ≤ fuel) :
    ∃ h', h.join fuel l m = some h' ∧ h'.WellFormed
      (Function.update (Function.update seq l (seq l ++ seq m)) m []) := by
  cases hseq : seq m with
  | nil =>
      refine ⟨h, ?_, ?_⟩
      · unfold ListHeap.join
        rw [hw.head, hseq]
        rfl
      · rwa [List.append_nil, Function.update_eq_self, ← hseq, Function.update_eq_self]
  | cons a rest =>
      rw [← hseq]
      exact ⟨_, hw.join_eq hfuel hseq, hw.splice hne hseq rfl rfl rfl rfl rfl⟩

/-- One call does in memory what it should do to the sequences. -/
theorem run (hw : h.WellFormed seq) {op : ListOp ι α} (hop : op.Proper) {fuel : Nat}
    (hfuel : op.turns seq ≤ fuel) :
    ∃ h', op.run fuel h = some h' ∧ h'.WellFormed (op.apply seq) := by
  cases op with
  | addTail l a =>
      refine ⟨_, rfl, ?_⟩
      cases hparent : h.parent a with
      | none =>
          have hout : ¬ ∃ l, a ∈ seq l := fun ⟨l, ha⟩ => hw.notMem_of_unlinked hparent l ha
          rw [ListOp.apply, if_neg hout]
          exact hw.append l hparent
      | some k =>
          rw [ListOp.apply, if_pos ⟨k, (hw.parent_iff k a).mp hparent⟩]
          simpa [addTail, hparent] using hw
  | popHead l => exact ⟨_, rfl, hw.popHead l⟩
  | join l m => exact hw.join hop hfuel
  | removeFromLink a => exact hw.removeFromLink a

end WellFormed

end ListHeap

section Runs

variable {ι α : Type} [DecidableEq ι] [DecidableEq α]

open ListHeap

/-- Any run of list calls, from a well-formed memory. -/
theorem ListHeap.exists_exec {ops : List (ListOp ι α)} (hops : ∀ op ∈ ops, op.Proper)
    (seq : ι → List α) :
    ∃ enough, ∀ fuel ≥ enough, ∀ h : ListHeap ι α, h.WellFormed seq →
      ∃ h', exec (ListOp.run fuel) h ops = some h' ∧
        h'.WellFormed (ops.foldl ListOp.apply seq) := by
  induction ops generalizing seq with
  | nil => exact ⟨0, fun _ _ h hw => ⟨h, rfl, hw⟩⟩
  | cons op rest ih =>
      rw [List.forall_mem_cons] at hops
      obtain ⟨enough, hrest⟩ := ih hops.2 (op.apply seq)
      refine ⟨max (op.turns seq) enough, ?_⟩
      intro fuel hfuel h hw
      rw [ge_iff_le, Nat.max_le] at hfuel
      obtain ⟨h₁, hrun, hw₁⟩ := hw.run hops.1 hfuel.1
      obtain ⟨h₂, hexec, hw₂⟩ := hrest fuel hfuel.2 h₁ hw₁
      refine ⟨h₂, ?_, hw₂⟩
      rw [exec, hrun]
      exact hexec

/-- The intrusive lists refine plain sequences: every run of list calls on zeroed lists and
items ends without following a null pointer, in a memory that holds the sequences the
calls should make. -/
theorem intrusiveLists_refine (ops : List (ListOp ι α)) (hops : ∀ op ∈ ops, op.Proper) :
    ∃ enough, ∀ fuel ≥ enough,
      ∃ h, exec (ListOp.run fuel) (zeroed : ListHeap ι α) ops = some h ∧
        h.WellFormed (ops.foldl ListOp.apply fun _ => []) := by
  obtain ⟨enough, hrun⟩ := ListHeap.exists_exec hops fun _ => []
  exact ⟨enough, fun fuel hfuel => hrun fuel hfuel _ WellFormed.zeroed⟩

/-- Two items in two lists, the second list joined to the first, and an item that a removal
has to find in the list it was moved to. -/
def moveAndRemove : List (ListOp Nat Nat) :=
  [.addTail 0 7, .addTail 1 8, .join 0 1, .removeFromLink 8]

theorem intrusiveLists_refine_moveAndRemove :
    (∀ op ∈ moveAndRemove, op.Proper) ∧
    ∃ enough, ∀ fuel ≥ enough,
      ∃ h, exec (ListOp.run fuel) zeroed moveAndRemove = some h ∧
        h.WellFormed (moveAndRemove.foldl ListOp.apply fun _ => []) := by
  have hops : ∀ op ∈ moveAndRemove, op.Proper := by simp [moveAndRemove, ListOp.Proper]
  exact ⟨hops, intrusiveLists_refine _ hops⟩

end Runs

section Lists

variable {α : Type} [DecidableEq α]

/-- The call on the lists the wheel is modelled with. -/
def ListOp.onLists (L : TimerLists α) : ListOp ListId α → TimerLists α
  | .addTail list item => TimerLists.addTail L list item
  | .popHead list => TimerLists.popHead L list
  | .join list other => TimerLists.join L list other
  | .removeFromLink item => TimerLists.removeFromLink L item

theorem ListOp.wellLinked_onLists {L : TimerLists α} (hL : L.WellLinked)
    {op : ListOp ListId α} (hop : op.Proper) : (op.onLists L).WellLinked := by
  cases op with
  | addTail l a => exact TimerLists.wellLinked_addTail hL l a
  | popHead l => exact TimerLists.wellLinked_popHead hL l
  | join l m => exact TimerLists.wellLinked_join hL hop
  | removeFromLink a => exact TimerLists.wellLinked_removeFromLink hL a

/-- The sequences of the model are those a call should make. -/
theorem ListOp.seq_onLists {L : TimerLists α} (hL : L.WellLinked) (op : ListOp ListId α) :
    (op.onLists L).seq = op.apply L.seq := by
  cases op with
  | addTail l a =>
      rw [onLists, apply, TimerLists.addTail]
      by_cases hparent : (L.parent a).isSome
      · obtain ⟨k, hk⟩ := Option.isSome_iff_exists.mp hparent
        rw [if_pos hparent, if_pos ⟨k, (hL.mem_iff k a).mpr hk⟩]
      · have hout : ¬ ∃ k, a ∈ L.seq k := by
          rintro ⟨k, hk⟩
          rw [hL.mem_iff] at hk
          simp [hk] at hparent
        rw [if_neg hparent, if_neg hout]
        rfl
  | popHead l =>
      rw [onLists, apply, TimerLists.popHead]
      cases hseq : L.seq l with
      | nil => exact (Function.update_eq_self_iff.mpr hseq.symm).symm
      | cons a rest => simp [LinkedSeqs.unlink, hseq]
  | join l m =>
      rw [onLists, TimerLists.join_eq_splice]
      rfl
  | removeFromLink a =>
      funext l
      exact TimerLists.seq_removeFromLink hL a l

theorem ListOp.foldl_onLists {ops : List (ListOp ListId α)} (hops : ∀ op ∈ ops, op.Proper)
    {L : TimerLists α} (hL : L.WellLinked) :
    (ops.foldl ListOp.onLists L).seq = ops.foldl ListOp.apply L.seq ∧
      (ops.foldl ListOp.onLists L).WellLinked := by
  induction ops generalizing L with
  | nil => exact ⟨rfl, hL⟩
  | cons op rest ih =>
      rw [List.forall_mem_cons] at hops
      rw [List.foldl_cons, List.foldl_cons, ← op.seq_onLists hL]
      exact ih hops.2 (op.wellLinked_onLists hL hops.1)

/-- The lists of the model are what a run of calls leaves in memory, parents included. -/
theorem TimerLists.inMemory {ops : List (ListOp ListId α)}
    (hops : ∀ op ∈ ops, op.Proper) {L : TimerLists α} (hL : L.WellLinked) :
    ∃ enough, ∀ fuel ≥ enough, ∀ h : ListHeap ListId α, h.WellFormed L.seq →
      ∃ h', exec (ListOp.run fuel) h ops = some h' ∧
        h'.WellFormed (ops.foldl ListOp.onLists L).seq ∧
        h'.parent = (ops.foldl ListOp.onLists L).parent := by
  obtain ⟨enough, hrun⟩ := ListHeap.exists_exec hops L.seq
  refine ⟨enough, ?_⟩
  intro fuel hfuel h hw
  obtain ⟨h', hexec, hw'⟩ := hrun fuel hfuel h hw
  obtain ⟨hseq, hL'⟩ := ListOp.foldl_onLists hops hL
  rw [← hseq] at hw'
  refine ⟨h', hexec, hw', ?_⟩
  funext a
  refine Option.ext fun l => ?_
  rw [hw'.parent_iff, hL'.mem_iff]

end Lists

end Libcr
