import Leandros.Mm.Buddy.Run

/-!
# Leandros.Mm.Buddy.Complete

**Allocation is complete**: a request fails only if memory has no free run that
would answer it. The lists hold blocks, not runs, so what has to be shown is
that merging leaves no run in pieces: a naturally aligned run of free pages
lies inside one listed block (`Pool.listed_of_free`). The loops of the two
allocation functions go through the lists of all orders that can hold it.

The induction is on the order of the run. Its two halves are free, so each lies in a listed block;
if these are the halves themselves they are buddies of one order, which `Pool` excludes. `Serves`
is the specification of both functions, with the bound of `alloc_below` as a parameter that
is closed downwards.
-/

namespace Leandros.Mm

namespace Buddy

variable {s : Buddy} {L : Nat → List Nat} {o a k b p : Nat}

/-! ### Runs and listed blocks -/

/-- Aligned blocks that share a page are nested. -/
theorem blockPages_subset (ha : pageSize <<< k ∣ a) (hb : pageSize <<< o ∣ b) (hko : k ≤ o)
    (hpa : p ∈ blockPages k a) (hpb : p ∈ blockPages o b) : blockPages k a ⊆ blockPages o b :=
  Dyadic.Ico_subset_of_mem (two_pow_dvd_page ha) (two_pow_dvd_page hb) hko hpa hpb

/-- Inside a block, no aligned run starts below the block. -/
theorem le_of_blockPages_subset (hb : pageSize ∣ b) (hsub : blockPages k a ⊆ blockPages o b) :
    b ≤ a := by
  have hhead := (mem_blockPages.mp (hsub (head_mem_blockPages k a))).1
  calc b = b / pageSize * pageSize := (Nat.div_mul_cancel hb).symm
    _ ≤ a / pageSize * pageSize := Nat.mul_le_mul_right _ hhead
    _ ≤ a := Nat.div_mul_le_self a pageSize

theorem eq_of_blockPages_subset (ha : pageSize <<< k ∣ a) (hb : pageSize <<< k ∣ b)
    (hsub : blockPages k a ⊆ blockPages k b) : a = b := by
  have hhead := head_mem_blockPages k a
  have hsup := blockPages_subset hb ha le_rfl (hsub hhead) hhead
  exact le_antisymm (le_of_blockPages_subset ((pageSize_dvd_blockSize k).trans ha) hsup)
    (le_of_blockPages_subset ((pageSize_dvd_blockSize k).trans hb) hsub)

/-- **No run is left in pieces.** An aligned run of free pages lies inside a
listed block. By induction on the order: each half lies in a listed block, and
if neither block is larger than the half the two halves are listed buddies. -/
theorem Pool.listed_of_free (h : s.Pool L) : ∀ k < maxOrder, ∀ a, pageSize <<< k ∣ a →
    blockPages k a ⊆ freeSet L →
    ∃ o, k ≤ o ∧ o < maxOrder ∧ ∃ b ∈ L o, blockPages k a ⊆ blockPages o b := by
  intro k
  induction k with
  | zero =>
    intro _ a ha hfree
    obtain ⟨o, ho, b, hb, hp⟩ := mem_freeSet.mp (hfree (head_mem_blockPages 0 a))
    exact ⟨o, Nat.zero_le o, ho, b, hb, blockPages_subset ha (h.rep.good o ho b hb).aligned
      (Nat.zero_le o) (head_mem_blockPages 0 a) hp⟩
  | succ k ih =>
    intro hk a ha hfree
    have hhalf : pageSize <<< k ∣ pageSize <<< (k + 1) := by
      rw [blockSize_succ]
      exact Nat.dvd_add dvd_rfl dvd_rfl
    have hlo : pageSize <<< k ∣ a := hhalf.trans ha
    have hhi : pageSize <<< k ∣ a + pageSize <<< k := Nat.dvd_add hlo dvd_rfl
    have hsplit := blockPages_split k a
    -- A block as large as the run that meets one half holds the whole run.
    have hlarge : ∀ {c : Nat}, pageSize <<< k ∣ c → blockPages k c ⊆ blockPages (k + 1) a →
        (∃ o, k ≤ o ∧ o < maxOrder ∧ ∃ b ∈ L o, blockPages k c ⊆ blockPages o b) →
        (∃ o, k + 1 ≤ o ∧ o < maxOrder ∧ ∃ b ∈ L o, blockPages (k + 1) a ⊆ blockPages o b) ∨
          c ∈ L k := by
      rintro c hc hca ⟨o, hko, ho, b, hb, hsub⟩
      have hal := (h.rep.good o ho b hb).aligned
      rcases hko.eq_or_lt with rfl | hlt
      · exact .inr (eq_of_blockPages_subset hc hal hsub ▸ hb)
      · have hp := head_mem_blockPages k c
        exact .inl ⟨o, hlt, ho, b, hb, blockPages_subset ha hal hlt (hca hp) (hsub hp)⟩
    have hsub_lo : blockPages k a ⊆ blockPages (k + 1) a := hsplit ▸ Finset.subset_union_left
    have hsub_hi : blockPages k (a + pageSize <<< k) ⊆ blockPages (k + 1) a :=
      hsplit ▸ Finset.subset_union_right
    rcases hlarge hlo hsub_lo (ih (by omega) a hlo (hsub_lo.trans hfree)) with hin | hlisted
    · exact hin
    rcases hlarge hhi hsub_hi (ih (by omega) _ hhi (hsub_hi.trans hfree)) with hin | hlisted'
    · exact hin
    refine absurd ?_ (h.merged k hk _ hlisted')
    rwa [xor_upper_half ha]

/-! ### The two allocation functions -/

/-- A call answers as far as memory can: `r` is a failure iff no aligned run of
free pages `fits`, and an address it returns is such a run, which then has moved
from the free to the allocated pages. -/
structure Serves (ranges : List PhysRange) (regions : List MemoryRegion) (st : State)
    (L : Nat → List Nat) (order : Nat) (fits : Nat → Prop) (r : Option Nat × Buddy) : Prop where
  none_iff : r.1 = none ↔ ¬∃ a, pageSize <<< order ∣ a ∧ fits a ∧ blockPages order a ⊆ freeSet L
  some_spec : ∀ a, r.1 = some a → pageSize <<< order ∣ a ∧ fits a ∧ blockPages order a ⊆ freeSet L ∧
    (st.handOut order r).allocated = st.allocated ∪ blockPages order a ∧
    ∃ L', WellFormed ranges regions (st.handOut order r) L' ∧
      freeSet L' = freeSet L \ blockPages order a

variable {ranges : List PhysRange} {regions : List MemoryRegion} {st : State} {order : Nat}

/-- `fits` may ask a block to end low, not to start high. -/
theorem Inv.serves (h : Inv ranges regions st L) (ho : order < maxOrder) {fits : Nat → Prop}
    (hfits : ∀ b a, b ≤ a → fits a → fits b) {r : Option Nat × Buddy}
    (hr : Answers st.buddy L order fits (List.range' order (maxOrder - order)) r) :
    Serves ranges regions st L order fits r := by
  have hsome : ∀ a, r.1 = some a →
      pageSize <<< order ∣ a ∧ fits a ∧ blockPages order a ⊆ freeSet L := by
    intro a ha
    rcases hr.outcome with ⟨hn, -⟩ | ⟨addr, hs, halloc⟩
    · simp [hn] at ha
    · cases ha.symm.trans hs
      exact ⟨halloc.good.aligned, hr.within a ha, halloc.wasFree⟩
  refine ⟨⟨?_, fun hno => ?_⟩, fun a ha => ?_⟩
  · rintro hn ⟨a, hal, hfit, hfree⟩
    -- a free run of pages lies in one listed block, which starts no later and so fits too
    obtain ⟨o, hle, ho', b, hb, hsub⟩ := h.pool.listed_of_free order ho a hal hfree
    have hba := le_of_blockPages_subset (h.pool.rep.good o ho' b hb).page hsub
    exact hr.exhausted hn o (List.mem_range'_1.mpr (by omega)) b hb (hfits b a hba hfit)
  · cases hres : r.1 with
    | none => rfl
    | some a => exact absurd ⟨a, hsome a hres⟩ hno
  · obtain ⟨hal, hfit, hfree⟩ := hsome a ha
    obtain ⟨L', hinv, hfs⟩ := h.handOut hr.outcome
    exact ⟨hal, hfit, hfree, by simp [State.handOut, ha], L', hinv.wellFormed, hfs a ha⟩

/-- **Completeness.** In every state the allocator can reach, both allocation
functions return; they fail only when no naturally aligned run of free pages
(ending at or below the limit) is left, and otherwise hand out such a run and
move exactly its pages. -/
theorem alloc_complete (mem : Nat → Nat) (ranges : List PhysRange)
    (regions : List MemoryRegion) (hlen : ranges.length ≤ maxReserved)
    (hd : RegionsDisjoint regions) (st : State)
    (hst : Reachable (Booted mem ranges regions) Permitted State.step st) :
    ∃ L, WellFormed ranges regions st L ∧ ∀ order < maxOrder,
      (∃ r, st.buddy.allocUntracked order = some r ∧
        Serves ranges regions st L order (fun _ => True) r) ∧
      ∀ limit, ∃ r, st.buddy.allocBelowUntracked order limit = some r ∧
        Serves ranges regions st L order (fun a => a + (pageSize <<< order) ≤ limit) r := by
  obtain ⟨L, h⟩ := inv_of_reachable hlen hd hst
  refine ⟨L, h.wellFormed, fun order ho => ⟨?_, fun limit => ?_⟩⟩
  · obtain ⟨r, hr, hans⟩ := allocUntracked_pool h.pool order
    exact ⟨r, hr, h.serves ho (fun _ _ _ _ => trivial) hans⟩
  · obtain ⟨r, hr, hans⟩ := allocBelowUntracked_pool h.pool order limit
    exact ⟨r, hr, h.serves ho (fun _ _ _ _ => by omega) hans⟩

/-- One region with a reserved kernel image, right after boot. -/
theorem alloc_complete_one_region :
    let ranges : List PhysRange := [⟨0x200000, 0x2a5123, by norm_num⟩]
    let regions : List MemoryRegion := [⟨0x100000, 0x7f00000, .available, by norm_num⟩]
    ∃ st, Booted (fun _ => 0) ranges regions st ∧
      ∃ L, WellFormed ranges regions st L ∧ ∀ order < maxOrder,
        (∃ r, st.buddy.allocUntracked order = some r ∧
          Serves ranges regions st L order (fun _ => True) r) ∧
        ∀ limit, ∃ r, st.buddy.allocBelowUntracked order limit = some r ∧
          Serves ranges regions st L order (fun a => a + (pageSize <<< order) ≤ limit) r := by
  intro ranges regions
  have hd : RegionsDisjoint regions := by simp [RegionsDisjoint, regions]
  have hlen : ranges.length ≤ maxReserved := by decide
  obtain ⟨b, L, hb, -⟩ := boot_inv (fun _ => 0) hlen hd
  exact ⟨⟨b, ∅⟩, ⟨hb, rfl⟩, alloc_complete (fun _ => 0) ranges regions hlen hd _ (.start ⟨hb, rfl⟩)⟩

end Buddy

end Leandros.Mm
