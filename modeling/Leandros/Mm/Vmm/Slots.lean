import Leandros.Mm.Vmm.Space

/-!
# Leandros.Mm.Vmm.Slots

**How the VMA table reads after each edit.** `AddressSpace.vma i` is the VMA of slot `i`;
the lemmas below say what `put`, `reserve`, `claim` and `mapSlots` make of it, and what
a search answers.

The table is a vector with free slots in it, which `reserve` uses before it grows the vector. A claim
(`Claimed`) is page-aligned, does not wrap, meets no region of the table and comes with an empty
slot; apart from that slot the table is the one before (`SameTable`). The proofs of the next
modules look at the table through these lemmas only.
-/

namespace Leandros.Mm.Vmm

namespace AddressSpace

variable {as : AddressSpace} {i j : Nat} {r : VmaRegion}

/-! ### Slots -/

theorem lt_of_vma (h : as.vma i = some r) : i < as.regions.length := by
  by_contra hle
  rw [vma, List.getElem?_eq_none (by omega)] at h
  exact absurd h (by simp)

theorem mem_vmas : r ∈ as.vmas ↔ ∃ i, as.vma i = some r := by
  rw [vmas, List.mem_filterMap]
  simp only [id_eq, exists_eq_right, vma, Option.join_eq_some_iff]
  exact List.mem_iff_getElem?

theorem vma_put (h : i < as.regions.length) (r : VmaRegion) (j : Nat) :
    (as.put i r).vma j = if j = i then some r else as.vma j := by
  rw [vma, put, List.getElem?_set]
  by_cases hij : i = j
  · rw [if_pos hij, if_pos h, if_pos hij.symm]
    rfl
  · rw [if_neg hij, if_neg (Ne.symm hij), vma]

theorem vma_mapSlots (f : VmaRegion → Option VmaRegion) (i : Nat) :
    (as.mapSlots f).vma i = (as.vma i).bind f := by
  rw [vma, vma, mapSlots, List.getElem?_map]
  cases as.regions[i]? <;> rfl

/-- **`reserve`** answers an empty slot, and changes no VMA. -/
theorem reserve_spec (as : AddressSpace) : as.vma as.reserve.1 = none ∧
    as.reserve.1 < as.reserve.2.regions.length ∧ (∀ i, as.reserve.2.vma i = as.vma i) ∧
    as.reserve.2.root = as.root ∧ as.reserve.2.heapStart = as.heapStart ∧
    as.reserve.2.heapEnd = as.heapEnd := by
  unfold reserve
  cases h : as.regions.findIdx? Option.isNone with
  | some =>
    obtain ⟨hk, hnone, -⟩ := List.findIdx?_eq_some_iff_getElem.mp h
    refine ⟨?_, hk, fun _ => rfl, rfl, rfl, rfl⟩
    rw [vma, List.getElem?_eq_getElem hk, Option.isNone_iff_eq_none.mp hnone]
    rfl
  | none =>
    refine ⟨?_, by simp, fun i => ?_, rfl, rfl, rfl⟩
    · rw [vma, List.getElem?_eq_none le_rfl]
      rfl
    -- a free slot at the end of a longer vector
    show (as.regions ++ [none])[i]?.join = as.regions[i]?.join
    rw [List.getElem?_append]
    split
    · rfl
    · next hi =>
      rw [List.getElem?_eq_none (show as.regions.length ≤ i by omega)]
      cases i - as.regions.length <;> rfl

theorem position_eq_some {sel : VmaRegion → Bool} (h : as.position sel = some i) :
    ∃ r, as.vma i = some r ∧ sel r = true := by
  obtain ⟨hi, hsel, -⟩ := List.findIdx?_eq_some_iff_getElem.mp h
  obtain ⟨r, hr, hs⟩ := (Option.any_eq_true ..).mp hsel
  refine ⟨r, ?_, hs⟩
  rw [vma, List.getElem?_eq_getElem hi, hr]
  rfl

/-- What a search finds. -/
theorem locate_eq_some {sel : VmaRegion → Bool} (h : as.locate sel = some (i, r)) :
    as.vma i = some r ∧ sel r = true := by
  obtain ⟨k, hk, hm⟩ := Option.bind_eq_some_iff.mp h
  obtain ⟨q, hq, he⟩ := Option.map_eq_some_iff.mp hm
  obtain ⟨rfl, rfl⟩ := Prod.mk.injEq .. ▸ he
  obtain ⟨q', hq', hs⟩ := position_eq_some hk
  cases hq.symm.trans hq'
  exact ⟨hq, hs⟩

theorem overlaps_eq_false {virt stop : Nat} (h : as.overlaps virt stop = false)
    (hr : as.vma i = some r) : r.stop ≤ virt ∨ stop ≤ r.start := by
  have := List.any_eq_false.mp h r (mem_vmas.mpr ⟨i, hr⟩)
  simp only [Bool.and_eq_true, decide_eq_true_eq] at this
  omega

theorem takenBy_eq_false {idx oldEnd newEnd : Nat} (h : as.takenBy idx oldEnd newEnd = false)
    (hi : i ≠ idx) (hr : as.vma i = some r) : newEnd ≤ r.start ∨ r.stop ≤ oldEnd := by
  have := List.any_eq_false.mp h i (List.mem_range.mpr (lt_of_vma hr))
  rw [hr] at this
  simp only [hi, ne_eq, not_false_eq_true, decide_true, Option.any_some, Bool.true_and,
    Bool.and_eq_true, decide_eq_true_eq, not_and, gt_iff_lt] at this
  omega

/-! ### Claiming a range -/

/-- A claimed range is page-aligned, free, and has an empty slot waiting. -/
structure Claimed (as : AddressSpace) (virt pages : Nat) (as' : AddressSpace)
    (slot start stop : Nat) : Prop where
  start_eq : start = alignDown virt pageSize
  stop_eq : stop = start + wmul pages pageSize
  stop_lt : stop < usizeLimit
  empty : as'.vma slot = none
  slot_lt : slot < as'.regions.length
  free : ∀ i r, as'.vma i = some r → r.stop ≤ start ∨ stop ≤ r.start

/-- What a claim leaves of the table. -/
structure SameTable (as as' : AddressSpace) : Prop where
  vma : ∀ i, as'.vma i = as.vma i
  root : as'.root = as.root
  heapStart : as'.heapStart = as.heapStart
  heapEnd : as'.heapEnd = as.heapEnd

theorem sameTable_reserve (as : AddressSpace) : SameTable as as.reserve.2 := by
  obtain ⟨-, -, hv, hroot, hs, he⟩ := as.reserve_spec
  exact ⟨hv, hroot, hs, he⟩

/-- **`claim`** changes no VMA, and a range it answers can be recorded. -/
theorem claim_spec (as : AddressSpace) (virt pages : Nat) :
    SameTable as (as.claim virt pages).1 ∧ ∀ slot start stop,
      (as.claim virt pages).2 = some (slot, start, stop) →
        Claimed as virt pages (as.claim virt pages).1 slot start stop := by
  obtain ⟨hempty, hlt, hv, -⟩ := as.reserve_spec
  rw [claim]
  cases hadd : checkedAdd (alignDown virt pageSize) (wmul pages pageSize) with
  | none =>
    dsimp only
    exact ⟨sameTable_reserve as, nofun⟩
  | some =>
    obtain ⟨rfl, he⟩ := checkedAdd_eq_some.mp hadd
    dsimp only
    split
    · exact ⟨sameTable_reserve as, nofun⟩
    · next hno =>
      refine ⟨sameTable_reserve as, fun slot start stop h => ?_⟩
      obtain ⟨rfl, rfl, rfl⟩ : as.reserve.1 = slot ∧ alignDown virt pageSize = start ∧
          alignDown virt pageSize + wmul pages pageSize = stop := by
        simpa only [Option.some.injEq, Prod.mk.injEq] using h
      exact ⟨rfl, rfl, he, (hv _).trans hempty, hlt,
        fun i r hr => overlaps_eq_false (by simpa using hno) hr⟩

theorem Claimed.start_dvd {as' : AddressSpace} {virt pages slot start stop : Nat}
    (h : Claimed as virt pages as' slot start stop) : pageSize ∣ start :=
  h.start_eq ▸ dvd_alignDown ..

theorem pageSize_dvd_wmul (pages : Nat) : pageSize ∣ wmul pages pageSize :=
  (Nat.dvd_mod_iff (show pageSize ∣ usizeLimit by decide)).mpr (Dvd.intro_left _ rfl)

end AddressSpace

end Leandros.Mm.Vmm
