import Mathlib.Data.Finset.Prod
import Mathlib.Data.Finset.Range
import Libcr.Foundations.Runs
import Libcr.IdMap.Bits

/-!
# Live ids

`IdMap::Allocate` and `IdMap::Free` of `idmap.cc`, used by a caller that frees only ids
it holds. Live ids stand for different bits, and the set bits are those of the live ids;
so no live id is handed out again. An id map has 32768 ids but 4096 bits, and the search
for a clear bit does not wrap around, so that `Allocate` can fail with almost all ids free.
-/

namespace Libcr

/-- The fields of an `IdMap`. -/
structure IdMap where
  nrFree : Int
  lastId : Int
  page : IdMap.Page

namespace IdMap

/-- The constructor. -/
def new : IdMap where
  nrFree := idMaxDefault
  lastId := -1
  page := fun _ => 0

/-- `id & BITS_PER_PAGE_MASK`, in `unsigned long`. -/
def offsetOf (id : Int) : Nat :=
  (BitVec.ofInt 64 id &&& (BitVec.ofNat 64 bitsPerPage - 1)).toNat

/-- `IdMap::Allocate`: the answer and the map it leaves. -/
def allocate (m : IdMap) : Int × IdMap :=
  let id := m.lastId + 1
  let offset := offsetOf id
  if m.nrFree = 0 then (-1, m)
  else
    let offset := findNextZeroBit m.page bitsPerPage offset
    if bitsPerPage ≠ offset then
      let (set, page) := testAndSetBit offset m.page
      if !set then (offset, { nrFree := m.nrFree - 1, lastId := offset, page := page })
      else (-1, { m with page := page })
    else (-1, m)

/-- `IdMap::Free`. -/
def free (m : IdMap) (id : Int) : IdMap :=
  let offset := offsetOf id
  { m with nrFree := m.nrFree + 1, page := clearBit offset m.page }

end IdMap

/-- One call to an id map. -/
inductive IdCall
  | allocate
  | free (id : Int)

/-- An id map and the ids its caller holds, the last one allocated first. -/
structure IdUse where
  map : IdMap
  live : List Int

namespace IdUse

def new : IdUse where
  map := IdMap.new
  live := []

/-- A call; an id is freed only while it is live. -/
def step (u : IdUse) : IdCall → Option IdUse
  | .allocate =>
      let (id, map) := u.map.allocate
      some { map := map, live := if id = -1 then u.live else id :: u.live }
  | .free id =>
      if id ∈ u.live then some { map := u.map.free id, live := u.live.erase id } else none

end IdUse

namespace IdMap

theorem offsetOf_eq (id : Int) : offsetOf id = (id % 32768).toNat := by
  have hmask : (BitVec.ofNat 64 bitsPerPage - 1).toNat = 2 ^ 15 - 1 := by decide
  rw [offsetOf, BitVec.toNat_and, hmask, Nat.and_two_pow_sub_one_eq_mod, BitVec.toNat_ofInt]
  omega

theorem offsetOf_lt (id : Int) : offsetOf id < bitsPerPage := by
  rw [offsetOf_eq]
  have hpos := Int.emod_nonneg id (by decide : (32768 : Int) ≠ 0)
  have hlt := Int.emod_lt_of_pos id (by decide : (0 : Int) < 32768)
  change _ < 32768
  omega

theorem offsetOf_of_range {id : Int} (h : 0 ≤ id ∧ id < 32768) : offsetOf id = id.toNat := by
  rw [offsetOf_eq, Int.emod_eq_of_lt h.1 h.2]

/-- `Allocate` on a map that counts a free id: either every bit from the offset after the
last id on is set, or the first clear one among them is taken. -/
theorem allocate_cases (m : IdMap) (hfree : m.nrFree ≠ 0) :
    ((∀ o, offsetOf (m.lastId + 1) ≤ o → o < bitsPerPage → Taken m.page o) ∧
        m.allocate = (-1, m)) ∨
      ∃ o, offsetOf (m.lastId + 1) ≤ o ∧ o < bitsPerPage ∧ ¬ Taken m.page o ∧
        (∀ o', offsetOf (m.lastId + 1) ≤ o' → o' < o → Taken m.page o') ∧
        m.allocate = ((o : Int), { nrFree := m.nrFree - 1, lastId := o,
                                   page := (testAndSetBit o m.page).2 }) := by
  obtain ⟨hstart, hend, htaken, hclear⟩ :=
    findNextZeroBit_spec m.page (offsetOf_lt (m.lastId + 1)).le
  generalize hfound : findNextZeroBit m.page bitsPerPage (offsetOf (m.lastId + 1)) = found at *
  rcases eq_or_lt_of_le hend with rfl | hlt
  · left
    refine ⟨htaken, ?_⟩
    simp [allocate, hfree, hfound]
  · right
    have hset : (testAndSetBit found m.page).1 = false := by
      rw [← Bool.not_eq_true, testAndSetBit_fst]
      exact hclear hlt
    refine ⟨found, hstart, hlt, hclear hlt, htaken, ?_⟩
    simp [allocate, hfree, hfound, hlt.ne', hset]

end IdMap

namespace IdUse

open IdMap

/-- Live ids are in range and stand for different bits, and the set bits are theirs. -/
structure Inv (u : IdUse) : Prop where
  range : ∀ id ∈ u.live, 0 ≤ id ∧ id < 32768
  cells : (u.live.map fun id => cell id.toNat).Nodup
  taken_iff : ∀ o, Taken u.map.page o ↔ ∃ id ∈ u.live, cell id.toNat = cell o
  nrFree : u.map.nrFree = 32768 - u.live.length

theorem inv_new : new.Inv where
  range := by simp [new]
  cells := by simp [new]
  taken_iff := by simp [new, IdMap.new, Taken]
  nrFree := rfl

variable {u v : IdUse}

theorem length_le_of_cells {cells : List (Nat × Nat)} (h : cells.Nodup) {words bits : Nat}
    (hcells : ∀ c ∈ cells, c.1 < words ∧ c.2 < bits) : cells.length ≤ words * bits := by
  have hsub : cells.toFinset ⊆ Finset.range words ×ˢ Finset.range bits := by
    intro c hc
    rw [Finset.mem_product, Finset.mem_range, Finset.mem_range]
    exact hcells c (List.mem_toFinset.mp hc)
  have hcard := Finset.card_le_card hsub
  rwa [List.toFinset_card_of_nodup h, Finset.card_product, Finset.card_range,
    Finset.card_range] at hcard

/-- There are 64 words with 64 bits each for the ids. -/
theorem Inv.length_le (hu : u.Inv) : u.live.length ≤ 64 * 64 := by
  rw [← List.length_map fun id : Int => cell id.toNat]
  refine length_le_of_cells hu.cells ?_
  rw [List.forall_mem_map]
  intro id hid
  have hrange := hu.range id hid
  exact ⟨Nat.div_lt_of_lt_mul (by omega), Nat.mod_lt _ (by decide)⟩

theorem Inv.nrFree_ne_zero (hu : u.Inv) : u.map.nrFree ≠ 0 := by
  have hlen := hu.length_le
  have hcount := hu.nrFree
  omega

/-- Two live ids with the same bit are the same. -/
theorem Inv.eq_of_cell (hu : u.Inv) {id other : Int} (hid : id ∈ u.live) (hother : other ∈ u.live)
    (h : cell id.toNat = cell other.toNat) : id = other :=
  List.inj_on_of_nodup_map hu.cells hid hother h

/-- A new id stands for a bit that no live id has. -/
theorem Inv.allocate (hu : u.Inv) (hstep : u.step .allocate = some v) : v.Inv := by
  rw [IdUse.step] at hstep
  rcases u.map.allocate_cases hu.nrFree_ne_zero with ⟨-, heq⟩ | ⟨o, -, hlt, hclear, -, heq⟩
  · simp only [heq, if_true, Option.some.injEq] at hstep
    rwa [← hstep]
  · have hne : (o : Int) ≠ -1 := by omega
    simp only [heq, if_neg hne, Option.some.injEq] at hstep
    subst hstep
    rw [hu.taken_iff] at hclear
    constructor
    case range =>
      rw [List.forall_mem_cons]
      refine ⟨?_, hu.range⟩
      have hlt : o < 32768 := hlt
      omega
    case cells =>
      rw [List.map_cons, List.nodup_cons]
      refine ⟨?_, hu.cells⟩
      intro hmem
      obtain ⟨id, hid, hcell⟩ := List.mem_map.mp hmem
      exact hclear ⟨id, hid, hcell⟩
    case taken_iff =>
      intro o'
      rw [taken_testAndSetBit, hu.taken_iff, List.exists_mem_cons_iff, Int.toNat_natCast, eq_comm]
    case nrFree =>
      have hcount := hu.nrFree
      simp only [List.length_cons]
      omega

/-- The bit of the id that is freed is no other live id's. -/
theorem Inv.free (hu : u.Inv) {id : Int} (hstep : u.step (.free id) = some v) : v.Inv := by
  rw [IdUse.step] at hstep
  split at hstep
  case isFalse => simp at hstep
  case isTrue hid =>
    obtain rfl := Option.some.inj hstep
    have hnodup : u.live.Nodup := hu.cells.of_map
    constructor
    case range => exact fun other hother => hu.range other (List.mem_of_mem_erase hother)
    case cells => exact hu.cells.sublist (List.erase_sublist.map _)
    case taken_iff =>
      intro o
      dsimp only [IdMap.free]
      rw [taken_clearBit, hu.taken_iff, offsetOf_of_range (hu.range id hid)]
      constructor
      · rintro ⟨hne, other, hother, hcell⟩
        refine ⟨other, (hnodup.mem_erase_iff).mpr ⟨?_, hother⟩, hcell⟩
        rintro rfl
        exact hne hcell.symm
      · rintro ⟨other, hother, hcell⟩
        obtain ⟨hne, hmem⟩ := hnodup.mem_erase_iff.mp hother
        refine ⟨?_, other, hmem, hcell⟩
        rw [← hcell]
        exact fun hsame => hne (hu.eq_of_cell hmem hid hsame)
    case nrFree =>
      have hcount := hu.nrFree
      have hlen := List.length_erase_of_mem hid
      have hpos := List.length_pos_of_mem hid
      dsimp only [IdMap.free]
      omega

/-- What holds after any calls. -/
theorem inv_of_exec {calls : List IdCall} (h : exec step new calls = some u) : u.Inv := by
  have hreach : Reaches step always new u := exec_reaches (fun _ _ _ => trivial) h
  refine hreach.invariant inv_new ?_
  rintro u (_ | id) v - hu - hstep
  · exact hu.allocate hstep
  · exact hu.free hstep

/-- No live id is handed out. -/
theorem Inv.allocate_notMem (hu : u.Inv) : u.map.allocate.1 ∉ u.live := by
  intro hmem
  rcases u.map.allocate_cases hu.nrFree_ne_zero with ⟨-, heq⟩ | ⟨o, -, -, hclear, -, heq⟩
  · rw [heq] at hmem
    have hneg : (0 : Int) ≤ -1 := (hu.range _ hmem).1
    omega
  · rw [heq] at hmem
    exact hclear ((hu.taken_iff o).mpr ⟨o, hmem, rfl⟩)

/-- The offset after the last id is taken if its bit is clear. -/
theorem Inv.allocate_next (hu : u.Inv) {o : Nat} (hlast : u.map.lastId + 1 = o)
    (ho : o < 32768) (hclear : ¬ Taken u.map.page o) :
    ∃ v, u.step .allocate = some v ∧ v.Inv ∧ v.live = (o : Int) :: u.live ∧ v.map.lastId = o := by
  have hstart : offsetOf (u.map.lastId + 1) = o := by
    rw [hlast, offsetOf_of_range (by omega), Int.toNat_natCast]
  rcases u.map.allocate_cases hu.nrFree_ne_zero with ⟨htaken, -⟩ | ⟨o', hle, -, -, htaken, heq⟩
  · exact absurd (htaken o hstart.le ho) hclear
  · obtain rfl : o' = o := by
      by_contra hne
      exact hclear (htaken o hstart.le (by omega))
    have hne : (o' : Int) ≠ -1 := by omega
    have hstep : u.step .allocate = some
        { map := u.map.allocate.2, live := (o' : Int) :: u.live } := by
      simp [IdUse.step, heq, hne]
    exact ⟨_, hstep, hu.allocate hstep, rfl, by rw [heq]⟩

end IdUse

open IdMap in
/-- An id map never hands out a live id: however it was used, the live ids are distinct and
in range, the free ids are counted, and an id that stays live when another one is freed
keeps its bit and is not what the next call returns. -/
theorem idMap_live_ids {calls : List IdCall} {u : IdUse}
    (h : exec IdUse.step IdUse.new calls = some u) :
    u.live.Nodup ∧ (∀ id ∈ u.live, 0 ≤ id ∧ id < 32768) ∧
      u.map.nrFree = 32768 - u.live.length ∧ u.map.allocate.1 ∉ u.live ∧
      ∀ id ∈ u.live, ∀ other ∈ u.live, other ≠ id →
        Taken (u.map.free id).page (offsetOf other) ∧ (u.map.free id).allocate.1 ≠ other := by
  have hu := IdUse.inv_of_exec h
  refine ⟨hu.cells.of_map, hu.range, hu.nrFree, hu.allocate_notMem, ?_⟩
  intro id hid other hother hne
  have hfree : u.step (.free id) = some { map := u.map.free id, live := u.live.erase id } :=
    if_pos hid
  have hv := hu.free hfree
  have hmem : other ∈ u.live.erase id := (List.mem_erase_of_ne hne).mpr hother
  constructor
  · rw [offsetOf_of_range (hu.range other hother)]
    exact (hv.taken_iff _).mpr ⟨other, hmem, rfl⟩
  · rintro rfl
    exact hv.allocate_notMem hmem

/-- Three ids, of which the second one is freed. -/
theorem idMap_live_ids_freed :
    ∃ u, exec IdUse.step IdUse.new [.allocate, .allocate, .allocate, .free 1] = some u ∧
      u.live = [2, 0] ∧ u.map.nrFree = 32766 := by
  obtain ⟨u, hu⟩ := Option.isSome_iff_exists.mp
    (show (exec IdUse.step IdUse.new [.allocate, .allocate, .allocate, .free 1]).isSome by
      decide +kernel)
  have hlive : (exec IdUse.step IdUse.new [.allocate, .allocate, .allocate, .free 1]).map
      IdUse.live = some [2, 0] := by decide +kernel
  rw [hu] at hlive
  have hlive : u.live = [2, 0] := Option.some.inj hlive
  refine ⟨u, hu, hlive, ?_⟩
  rw [(idMap_live_ids hu).2.2.1, hlive]
  rfl

open IdMap in
/-- When `Allocate` fails. There are never 32768 live ids; the call fails on a map with free
ids exactly when every offset after the last id allocated shares its bit with a live id. -/
theorem idMap_fails_iff {calls : List IdCall} {u : IdUse}
    (h : exec IdUse.step IdUse.new calls = some u) :
    (u.map.allocate.1 = -1 ↔ u.live.length = 32768) ↔
      ∃ o, offsetOf (u.map.lastId + 1) ≤ o ∧ o < 32768 ∧
        ∀ id ∈ u.live, cell id.toNat ≠ cell o := by
  have hu := IdUse.inv_of_exec h
  have hlen := hu.length_le
  have hnotall : u.live.length ≠ 32768 := by omega
  rw [iff_false_right hnotall]
  rcases u.map.allocate_cases hu.nrFree_ne_zero with ⟨htaken, heq⟩ | ⟨o, hle, hlt, hclear, -, heq⟩
  · rw [heq]
    refine iff_of_false (fun hne => hne rfl) ?_
    rintro ⟨o, hle, hlt, hfree⟩
    obtain ⟨id, hid, hcell⟩ := (hu.taken_iff o).mp (htaken o hle hlt)
    exact hfree id hid hcell
  · rw [heq]
    refine iff_of_true ?_ ⟨o, hle, hlt, ?_⟩
    · show (o : Int) ≠ -1
      omega
    · intro id hid hcell
      exact hclear ((hu.taken_iff o).mpr ⟨id, hid, hcell⟩)

/-- With one live id the next one is free. -/
theorem idMap_fails_iff_second :
    ∃ u, exec IdUse.step IdUse.new [.allocate] = some u ∧ u.live = [0] ∧
      (u.map.allocate.1 = -1 ↔ u.live.length = 32768) := by
  obtain ⟨u, hstep, -, hlive, hlast⟩ := IdUse.inv_new.allocate_next (o := 0) rfl (by decide)
    (by simp [IdUse.new, IdMap.new, IdMap.Taken])
  have hexec : exec IdUse.step IdUse.new [.allocate] = some u := by
    rw [exec, hstep]
    rfl
  refine ⟨u, hexec, hlive, (idMap_fails_iff hexec).mpr ⟨1, ?_, by decide, ?_⟩⟩
  · rw [hlast]
    decide
  · rw [hlive]
    decide

section SingleLiveId

open IdMap

/-- Ids that are allocated one after the other and freed at once. -/
def retire (first count : Nat) : List IdCall :=
  (List.range' first count).flatMap fun id => [.allocate, .free id]

variable {u : IdUse}

/-- Retiring ids moves the last id on and leaves the live ids as they are, as long as the
bits of the retired ids are clear. -/
theorem IdUse.Inv.exec_retire (hu : u.Inv) (first count : Nat)
    (hlast : u.map.lastId + 1 = first) (hrange : first + count ≤ 32768)
    (hclear : ∀ o, first ≤ o → o < first + count → ∀ id ∈ u.live, cell id.toNat ≠ cell o) :
    ∃ v, exec IdUse.step u (retire first count) = some v ∧ v.Inv ∧ v.live = u.live ∧
      v.map.lastId + 1 = (first + count : Nat) := by
  induction count generalizing u first with
  | zero => exact ⟨u, rfl, hu, rfl, hlast⟩
  | succ count ih =>
      have hfirst : ¬ Taken u.map.page first := by
        rw [hu.taken_iff]
        rintro ⟨id, hid, hcell⟩
        exact hclear first le_rfl (by omega) id hid hcell
      obtain ⟨v, hallocate, hv, hlive, hid⟩ := hu.allocate_next hlast (by omega) hfirst
      have hfree : v.step (.free first) = some
          { map := v.map.free first, live := u.live } := by
        simp [IdUse.step, hlive]
      obtain ⟨w, hexec, hw, hlive', hlast'⟩ := ih (hv.free hfree) (first + 1)
        (by simp [IdMap.free, hid]) (by omega)
        fun o ho ho' => hclear o (by omega) (by omega)
      have hsum : first + 1 + count = first + (count + 1) := by omega
      rw [hsum] at hlast'
      refine ⟨w, ?_, hw, hlive', hlast'⟩
      have hcalls : retire first (count + 1) =
          [.allocate, .free first] ++ retire (first + 1) count := by
        simp [retire, List.range'_succ]
      rw [hcalls]
      refine exec_trans ?_ hexec
      simp [exec, hallocate, hfree]

/-- One live id is enough to make `Allocate` fail. The id 32703 has the last bit of the last
word, and so has the offset 32767; when the ids between them have come and gone, the
search starts at the last offset and finds its bit set. -/
theorem idMap_fails_with_one_live :
    ∃ u, exec IdUse.step IdUse.new (retire 0 32703 ++ [.allocate] ++ retire 32704 63) = some u ∧
      u.live = [32703] ∧ u.map.allocate.1 = -1 := by
  obtain ⟨u₁, hexec₁, hu₁, hlive₁, hlast₁⟩ := IdUse.inv_new.exec_retire 0 32703
    rfl (by decide) (by simp [IdUse.new])
  have hclear : ¬ Taken u₁.map.page 32703 := by
    rw [hu₁.taken_iff, hlive₁]
    simp [IdUse.new]
  obtain ⟨u₂, hstep, hu₂, hlive₂, hlast₂⟩ := hu₁.allocate_next hlast₁ (by decide) hclear
  rw [hlive₁] at hlive₂
  have hcells : ∀ o, 32704 ≤ o → o < 32704 + 63 → ∀ id ∈ u₂.live, cell id.toNat ≠ cell o := by
    intro o hle hlt id hid
    rw [hlive₂] at hid
    obtain rfl : id = 32703 := by simpa [IdUse.new] using hid
    rw [cell, cell, Ne, Prod.mk.injEq, not_and]
    intro
    omega
  obtain ⟨u₃, hexec₃, hu₃, hlive₃, hlast₃⟩ := hu₂.exec_retire 32704 63
    (by rw [hlast₂]; rfl) (by decide) hcells
  refine ⟨u₃, exec_trans (exec_trans hexec₁ ?_) hexec₃, hlive₃.trans hlive₂, ?_⟩
  · rw [exec, hstep]
    rfl
  · have hmem : (32703 : Int) ∈ u₃.live := by
      rw [hlive₃, hlive₂]
      exact List.mem_cons_self ..
    rcases u₃.map.allocate_cases hu₃.nrFree_ne_zero with ⟨-, heq⟩ | ⟨o, hle, hlt, hclear, -, -⟩
    · rw [heq]
    · have hlt : o < 32768 := hlt
      rw [hlast₃, offsetOf_of_range (by decide)] at hle
      obtain rfl : o = 32767 := by
        have hle : 32767 ≤ o := hle
        omega
      exact absurd ((hu₃.taken_iff _).mpr ⟨32703, hmem, by decide⟩) hclear

end SingleLiveId

end Libcr
