import Leandros.Lib.Machine
import Leandros.Mm.Vmm.Table

/-!
# Leandros.Mm.Vmm.Layout

**The layout of an address space over whole runs.** `Op` is any call on an address
space, with any arguments; a run takes them one after the other, each with its own
answers from the allocator and the page tables.

`layout_kept`: as long as the arguments of the calls are `Tame`, every VMA is a
non-empty page-aligned range (or the empty heap), no two ranges meet, every present page
lies in its VMA, and `lazy_count` is the number of present pages. A call that is not
tame can break each of these; `break_below_heap_start` is `brk` with the user's value.
-/

namespace Leandros.Mm.Vmm

open AddressSpace
open PageVec

namespace VmaRegion

variable {r r' : VmaRegion} {heap : Nat}

/-- A VMA that is not empty unless it is the heap, with a true page count. -/
structure Whole (heap : Nat) (r : VmaRegion) : Prop where
  proper : r.start < r.stop ∨ r.start = heap ∧ r.stop = heap
  counted : r.lazyCount = r.lazyPages.countPresent

theorem SameVma.proper (hs : SameVma r r') (h : r.Whole heap) :
    r'.start < r'.stop ∨ r'.start = heap ∧ r'.stop = heap := by
  rw [hs.start, hs.stop]
  exact h.proper

theorem alloc_ne_zero {vm vm₁ : Vm} {answer : Option Nat} {phys order : Nat}
    (h : vm.alloc answer order = some (phys, vm₁)) : phys ≠ 0 := by
  unfold Vm.alloc at h
  split at h
  · contradiction
  · split at h
    · next hcan => exact (Prod.mk.inj (Option.some.inj h)).1 ▸ hcan.1
    · contradiction

variable {v : PageVec}

/-- A slot is filled, emptied, or gets another frame. -/
theorem countPresent_set {i : Nat} (hi : i < v.len) (p : Nat) :
    (v.set i p).countPresent + (if v.slot i = 0 then 0 else 1) =
      v.countPresent + if p = 0 then 0 else 1 := by
  have h := total_change (g := fun p => if p = 0 then 0 else 1) rfl (w := v.set i p)
    (v := v) fun j hj => by rw [slot_set hi, if_neg hj]
  rw [slot_set hi, if_pos rfl] at h
  rw [countPresent_eq, countPresent_eq]
  omega

theorem Whole.addPage {idx phys : Nat} (h : r.Whole heap) (habs : r.lazyPages.slot idx = 0)
    (hlen : idx < r.lazyPages.len) (hp : phys ≠ 0) : (r.addPage idx phys).Whole heap := by
  have hset := countPresent_set hlen phys
  rw [if_pos habs, if_neg hp, ← h.counted] at hset
  exact ⟨h.proper, hset.symm⟩

theorem Whole.edit {env : Env} {root : Nat} {x y : VmaRegion × Vm} (h : x.1.Whole heap)
    (he : FaultEdit env root x y) : y.1.Whole heap := by
  -- no edit moves a region; those that add a page count it, and a copy replaces one
  have hproper := he.sameVma.proper h
  cases he with
  | @grow r _ n =>
    refine ⟨hproper, ?_⟩
    rw [lazyCount_growTo, countPresent_eq, total_congr rfl (slot_growTo r n), ← countPresent_eq]
    exact h.counted
  | bit | remap =>
    refine ⟨hproper, ?_⟩
    rw [lazyCount_setWritten, lazyPages_setWritten]
    exact h.counted
  | cached habs hlen _ _ hlook => exact h.addPage habs hlen (lookup_ne_zero hlook)
  | fresh _ habs hlen _ halloc => exact h.addPage habs hlen (alloc_ne_zero halloc)
  | @copied _ _ _ _ _ _ new hslot hphys _ halloc =>
    refine ⟨hproper, ?_⟩
    have h0 := hslot.trans_ne hphys
    have hset := countPresent_set (lt_of_slot h0) new
    rw [if_neg h0, if_neg (alloc_ne_zero halloc), Nat.add_right_cancel_iff] at hset
    rw [lazyCount_setWritten, lazyPages_setWritten, hset]
    exact h.counted
  | dirty | bounced | spent | copyFailed => exact h

/-- Each of the listed pages leaves the VMA once. -/
theorem counted_dropPages (l : List (Nat × Nat)) : ∀ r : VmaRegion,
    r.lazyCount = r.lazyPages.countPresent → (∀ e ∈ l, r.lazyPages.slot e.1 ≠ 0) →
      (l.map (·.1)).Nodup → (dropPages r l).lazyCount = (dropPages r l).lazyPages.countPresent := by
  induction l with
  | nil => exact fun _ h _ _ => h
  | cons e l ih =>
    intro r hc hl hnd
    rw [List.map_cons, List.nodup_cons] at hnd
    have he := hl e List.mem_cons_self
    refine ih _ ?_ (fun e' he' => ?_) hnd.2
    · rw [lazyCount_setWritten, lazyPages_setWritten]
      have hset := countPresent_set (lt_of_slot he) 0
      rw [if_neg he, if_pos rfl] at hset
      show r.lazyCount - 1 = (r.lazyPages.set e.1 0).countPresent
      omega
    · rw [lazyPages_setWritten, slot_set (lt_of_slot he),
        if_neg fun heq : e'.1 = e.1 => hnd.1 (heq ▸ List.mem_map_of_mem he')]
      exact hl e' (.tail _ he')

theorem Whole.discarded (h : r.Whole heap) (virt stop : Nat) :
    (dropPages r (discarded virt stop r)).Whole heap := by
  refine ⟨(sameVma_dropPages _ r).proper h, ?_⟩
  unfold AddressSpace.discarded
  split
  · exact counted_dropPages _ r h.counted (present_presentIn r _ _) (nodup_presentIn r _ _)
  · exact h.counted

theorem Whole.shrunk {newEnd : Nat} (h : r.Whole heap) (hn : heap ≤ newEnd) (hstart : r.start = heap) :
    (shrunk r newEnd).Whole heap := by
  obtain ⟨h1, h2⟩ := shrunk_range r newEnd
  refine ⟨?_, counted_dropPages _ { r with stop := newEnd } h.counted (present_presentIn r _ _)
    (nodup_presentIn r _ _)⟩
  omega

end VmaRegion

namespace AddressSpace

open VmaRegion

variable {as as' : AddressSpace}

/-- Every VMA has the property. -/
def AllVmas (P : VmaRegion → Prop) (as : AddressSpace) : Prop := ∀ i r, as.vma i = some r → P r

/-! ### The argument sizes -/

/-- Rounding the size up to pages does not wrap. -/
def SizeFits (size : Nat) : Prop := size + (pageSize - 1) < usizeLimit

instance (size : Nat) : Decidable (SizeFits size) := inferInstanceAs (Decidable (_ < _))

variable {size virt : Nat}

theorem SizeFits.pagesFor_pos (h : SizeFits size) (h0 : size ≠ 0) : 0 < pagesFor size := by
  rw [pagesFor, wadd_of_lt h]
  have : pageSize = 4096 := rfl
  exact Nat.div_pos (by omega) (by omega)

theorem Claimed.start_lt_stop {pages slot start stop : Nat}
    (h : Claimed as virt pages as' slot start stop) (hp : 0 < pages)
    (hlt : pages * pageSize < usizeLimit) : start < stop := by
  rw [h.stop_eq, wmul_of_lt hlt]
  have : 0 < pages * pageSize := Nat.mul_pos hp (by decide)
  omega

theorem countPresent_ofList {frames : List Nat} (h : 0 ∉ frames) :
    (ofList frames).countPresent = frames.length := by
  rw [countPresent_eq, total, len_ofList,
    Finset.sum_congr rfl fun i hi => ?_, Finset.sum_const, Finset.card_range]
  · exact Nat.mul_one _
  · have hlt := Finset.mem_range.mp hi
    rw [slot_ofList, List.getD_eq_getElem _ _ hlt,
      if_neg fun h0 : frames[i] = 0 => h (h0 ▸ List.getElem_mem hlt)]

end AddressSpace

/-- The fields no call changes. -/
structure SameBase (as as' : AddressSpace) : Prop where
  root : as'.root = as.root
  heapStart : as'.heapStart = as.heapStart

/-- What the layout of an address space should be. -/
structure Layout (as : AddressSpace) : Prop extends Table as where
  whole : AllVmas (VmaRegion.Whole as.heapStart) as

/-- What a call makes of an address space: one that is laid out as it should be, with the
same page table and heap. -/
structure Leaves (as as' : AddressSpace) : Prop extends SameBase as as', Layout as'

theorem Layout.leaves {as : AddressSpace} (h : Layout as) : Leaves as as := ⟨⟨rfl, rfl⟩, h⟩

/-! ### Changes to the table

A call puts one VMA in a slot, or treats every VMA alone. -/

namespace Leaves

open VmaRegion

variable {as as₁ as₂ : AddressSpace} {i slot virt pages size newEnd : Nat} {r r' : VmaRegion}

variable (h : Leaves as as₁)
include h

theorem trans (h' : Leaves as₁ as₂) : Leaves as as₂ :=
  ⟨⟨h'.root.trans h.root, h'.heapStart.trans h.heapStart⟩, h'.toLayout⟩

theorem same (hs : SameTable as₁ as₂) : Leaves as as₂ where
  root := hs.root.trans h.root
  heapStart := hs.heapStart.trans h.heapStart
  heap_dvd := hs.heapStart ▸ h.heap_dvd
  sound i r hr := h.sound i r (hs.vma i ▸ hr)
  apart i j r q hij hr hq := h.apart i j r q hij (hs.vma i ▸ hr) (hs.vma j ▸ hq)
  whole i r hr := hs.heapStart ▸ h.whole i r (hs.vma i ▸ hr)

theorem setHeapEnd (e : Nat) : Leaves as { as₁ with heapEnd := e } :=
  ⟨⟨h.root, h.heapStart⟩, ⟨h.heap_dvd, h.sound, h.apart⟩, h.whole⟩

/-- A VMA is put in a slot, apart from those of all other slots. -/
theorem put (hi : i < as₁.regions.length) (hs : r.Sound)
    (hw : r.Whole as₁.heapStart) (hfree : ∀ j q, j ≠ i → as₁.vma j = some q → Apart r q) :
    Leaves as (as₁.put i r) := by
  refine ⟨⟨h.root, h.heapStart⟩, ⟨h.heap_dvd, fun j q hq => ?_, fun j k q p hjk hq hp => ?_⟩,
    fun j q hq => ?_⟩
  · rw [vma_put hi] at hq
    split at hq
    · exact Option.some.inj hq ▸ hs
    · exact h.sound j q hq
  · -- the pair may have the new region in either place
    rw [vma_put hi] at hq hp
    split at hq
    · next hj =>
      rw [if_neg fun hk => hjk (hj.trans hk.symm)] at hp
      exact Option.some.inj hq ▸ hfree k p (fun hk => hjk (hj.trans hk.symm)) hp
    · next hj =>
      split at hp
      · exact Option.some.inj hp ▸ (hfree j q hj hq).symm
      · exact h.apart j k q p hjk hq hp
  · rw [vma_put hi] at hq
    split at hq
    · exact Option.some.inj hq ▸ hw
    · exact h.whole j q hq

/-- A VMA is put back, not wider than it was. -/
theorem put_back (hr : as₁.vma i = some r) (hs : r'.Sound)
    (hw : r'.Whole as₁.heapStart) (h1 : r.start ≤ r'.start) (h2 : r'.stop ≤ r.stop) :
    Leaves as (as₁.put i r') :=
  h.put (lt_of_vma hr) hs hw fun j q hj hq => (h.apart i j r q (Ne.symm hj) hr hq).of_sub h1 h2

/-- A VMA is put back after the edits of a fault. -/
theorem edits {env : Env} {root : Nat} {vm vm' : Vm} (hr : as₁.vma i = some r)
    (he : FaultEdits env root (r, vm) (r', vm')) : Leaves as (as₁.put i r') :=
  h.put_back hr
    (FaultEdits.invariant (P := fun z => z.1.Sound) he (h.sound i r hr) fun _ _ _ hy => hy.edit)
    (FaultEdits.invariant (P := fun z => z.1.Whole _) he (h.whole i r hr) fun _ _ _ hy => hy.edit)
    (FaultEdits.sameVma he).start.ge (FaultEdits.sameVma he).stop.le

/-- A VMA's end moves up to a page boundary, with the room above it free. -/
theorem grow (hr : as₁.vma i = some r) (hd : pageSize ∣ newEnd)
    (hlt : newEnd < usizeLimit) (hle : r.stop ≤ newEnd) (hne : r.start < newEnd)
    (hfree : ∀ j q, j ≠ i → as₁.vma j = some q → newEnd ≤ q.start ∨ q.stop ≤ r.stop) :
    Leaves as (as₁.put i { r with stop := newEnd }) := by
  have hs := h.sound i r hr
  refine h.put (lt_of_vma hr) ⟨⟨hs.start_dvd, hd, hs.le.trans hle, hlt⟩, fun k hk => ?_⟩
    ⟨.inl hne, (h.whole i r hr).counted⟩ fun j q hj hq => ?_
  · refine (hs.below k hk).trans_le ?_
    show wsub r.stop r.start / pageSize ≤ wsub newEnd r.start / pageSize
    rw [wsub_of_le hs.le, wsub_of_le (hs.le.trans hle)]
    exact Nat.div_le_div_right (Nat.sub_le_sub_right hle _)
  · have h1 := h.apart i j r q (Ne.symm hj) hr hq
    have h2 := hfree j q hj hq
    have h3 := hs.le
    unfold Apart at *
    show newEnd ≤ q.start ∨ q.stop ≤ r.start ∨ newEnd ≤ r.start ∨ q.stop ≤ q.start
    omega

/-- A VMA is recorded in a claimed range. -/
theorem claimed (hcl : Claimed as virt pages as₁ slot r.start r.stop)
    (hne : r.start < r.stop) (hbelow : ∀ i, r.lazyPages.slot i ≠ 0 → i < r.pages)
    (hcount : r.lazyCount = r.lazyPages.countPresent) : Leaves as (as₁.put slot r) := by
  have hdvd : pageSize ∣ r.stop := by
    rw [hcl.stop_eq]
    exact Dvd.dvd.add hcl.start_dvd (pageSize_dvd_wmul pages)
  refine h.put hcl.slot_lt ⟨⟨hcl.start_dvd, hdvd, hne.le, hcl.stop_lt⟩, hbelow⟩
    ⟨.inl hne, hcount⟩ fun i q _ hq => ?_
  have := hcl.free i q hq
  unfold Apart
  omega

/-- A VMA without pages is recorded. -/
theorem claimed_blank
    (hcl : Claimed as virt (pagesFor size) as₁ slot r.start r.stop) (hok : SizeFits size)
    (h0 : size ≠ 0) (hp : r.lazyPages = .new) (hc : r.lazyCount = 0) :
    Leaves as (as₁.put slot r) := by
  refine h.claimed hcl (hcl.start_lt_stop (hok.pagesFor_pos h0) ?_) (fun i hi => ?_)
    (by rw [hp, hc]; rfl)
  · rw [pagesFor, wadd_of_lt hok]
    exact (Nat.div_mul_le_self _ _).trans_lt hok
  · rw [hp] at hi
    exact absurd rfl hi

/-- Every VMA is changed alone, none gets wider. -/
theorem mapSlots {f : VmaRegion → Option VmaRegion}
    (hf : ∀ r r', r.Sound → r.Whole as₁.heapStart → f r = some r' →
      r'.Sound ∧ r'.Whole as₁.heapStart ∧ r.start ≤ r'.start ∧ r'.stop ≤ r.stop) :
    Leaves as (as₁.mapSlots f) := by
  have hinv : ∀ {j q}, (as₁.mapSlots f).vma j = some q → ∃ r, as₁.vma j = some r ∧ q.Sound ∧
      q.Whole as₁.heapStart ∧ r.start ≤ q.start ∧ q.stop ≤ r.stop := by
    intro j q hq
    obtain ⟨r, hr, hfr⟩ := Option.bind_eq_some_iff.mp (vma_mapSlots f _ ▸ hq)
    exact ⟨r, hr, hf r q (h.sound j r hr) (h.whole j r hr) hfr⟩
  refine ⟨⟨h.root, h.heapStart⟩, ⟨h.heap_dvd, fun j q hq => ?_, fun j k q p hjk hq hp => ?_⟩,
    fun j q hq => ?_⟩
  · obtain ⟨r, -, hs, -⟩ := hinv hq
    exact hs
  · obtain ⟨r, hr, -, -, h1, h2⟩ := hinv hq
    obtain ⟨s, hs, -, -, h3, h4⟩ := hinv hp
    exact (((h.apart j k r s hjk hr hs).of_sub h1 h2).symm.of_sub h3 h4).symm
  · obtain ⟨r, -, -, hw, -⟩ := hinv hq
    exact hw

end Leaves

/-! ### The calls, one by one -/

namespace Layout

open VmaRegion

variable {as : AddressSpace} {vm : Vm} {env : Env} {size : Nat} (h : Layout as)

include h

section

variable (virt : Nat) (flags : PageFlags) (hok : SizeFits size)
include hok

theorem mapLazy (isShared : Bool) : Leaves as (as.mapLazy virt size flags isShared).2 := by
  rw [AddressSpace.mapLazy]
  split
  · exact h.leaves
  · next h0 =>
    rcases claim_cases as virt (pagesFor size) with
      ⟨as₁, hc, hs⟩ | ⟨as₁, slot, start, stop, hc, hs, hcl⟩ <;> rw [hc]
    · exact h.leaves.same hs
    · exact (h.leaves.same hs).claimed_blank hcl hok h0 rfl rfl

theorem mapLazyFileWith (fileCap : FileCap) (fileOff fileLen : Nat) (mapFlags : MapFlags) :
    Leaves as (as.mapLazyFileWith virt size flags fileCap fileOff fileLen mapFlags).2 := by
  rw [AddressSpace.mapLazyFileWith]
  split
  · exact h.leaves
  · next h0 =>
    split
    · exact h.leaves
    rcases claim_cases as virt (pagesFor size) with
      ⟨as₁, hc, hs⟩ | ⟨as₁, slot, start, stop, hc, hs, hcl⟩ <;> rw [hc]
    · exact h.leaves.same hs
    · exact (h.leaves.same hs).claimed_blank hcl hok h0 rfl rfl

theorem map (env : Env) (vm : Vm) : Leaves as (as.map env vm virt size flags).2.1 := by
  rw [AddressSpace.map]
  split
  · exact h.leaves
  · next h0 =>
    dsimp only
    rcases claim_cases as virt (pagesFor size) with
      ⟨as₁, hc, hs⟩ | ⟨as₁, slot, start, stop, hc, hs, hcl⟩ <;> rw [hc] <;> dsimp only
    · exact h.leaves.same hs
    · -- no frames, or an install that fails: the slot stays empty
      split
      · exact h.leaves.same hs
      · split
        · exact h.leaves.same hs
        · exact (h.leaves.same hs).claimed_blank hcl hok h0 rfl rfl

theorem mapDevice (env : Env) (vm : Vm) (phys : Nat) :
    Leaves as (as.mapDevice env vm virt phys size flags).2.1 := by
  rw [AddressSpace.mapDevice]
  split
  · exact h.leaves
  · next h0 =>
    dsimp only
    rcases claim_cases as virt (pagesFor size) with
      ⟨as₁, hc, hs⟩ | ⟨as₁, slot, start, stop, hc, hs, hcl⟩ <;> rw [hc] <;> dsimp only
    · exact h.leaves.same hs
    · split
      · exact h.leaves.same hs
      · exact (h.leaves.same hs).claimed_blank hcl hok h0 rfl rfl

end

theorem mapSharedFrames (env : Env) (vm : Vm) (virt : Nat) {frames : List Nat} (flags : PageFlags)
    (hf : Fits frames) (h0 : 0 ∉ frames) :
    Leaves as (as.mapSharedFrames env vm virt frames flags).2.1 := by
  rw [AddressSpace.mapSharedFrames]
  split
  · exact h.leaves
  · next hne =>
    rcases claim_cases as virt frames.length with
      ⟨as₁, hc, hs⟩ | ⟨as₁, slot, start, stop, hc, hs, hcl⟩ <;> rw [hc] <;> dsimp only
    · exact h.leaves.same hs
    split
    · exact h.leaves.same hs
    have hpos : 0 < frames.length :=
      List.length_pos_iff.mpr fun he => hne (List.isEmpty_iff.mpr he)
    refine (h.leaves.same hs).claimed hcl (hcl.start_lt_stop hpos hf) (fun i hi => ?_)
      (countPresent_ofList h0).symm
    rw [hcl.pages_of_fits hf rfl rfl]
    by_contra hge
    exact hi ((slot_ofList frames i).trans (List.getD_eq_default _ _ (by omega)))

theorem planUserPageFault (env : Env) (vm : Vm) (va : Nat) (isWrite : Bool) :
    Leaves as (as.planUserPageFault env vm va isWrite).2.1 := by
  rw [AddressSpace.planUserPageFault]
  split
  · exact h.leaves
  · next i r hl =>
    obtain ⟨hr, hc⟩ := locate_eq_some hl
    exact h.leaves.edits hr (planFault_edits (h.sound i r hr).toAligned hc isWrite)

theorem installFileFault {p : FileFault} {data : List Nat} {got : Int}
    {out : Fault × AddressSpace × Vm} (he : as.installFileFault env vm p data got = some out) :
    Leaves as out.2.1 := by
  rw [AddressSpace.installFileFault] at he
  split at he
  · cases he
    exact h.leaves
  · next i r hl =>
    obtain ⟨⟨f, r', vm'⟩, hin, rfl⟩ := Option.map_eq_some_iff.mp he
    exact h.leaves.edits (locate_eq_some hl).1 (installFault_edits hin)

/-- A split leaves two regions in the place of one. -/
theorem splitAt (vm : Vm) (boundary : Nat) : Leaves as (as.splitAt vm boundary).2.1 := by
  rw [AddressSpace.splitAt]
  split
  · exact h.leaves
  · next i r hl =>
    obtain ⟨hr, hin⟩ := locate_eq_some hl
    rw [Bool.and_eq_true, decide_eq_true_eq, decide_eq_true_eq] at hin
    split
    · exact h.leaves
    obtain ⟨h1, h2⟩ := toLazy_range r
    have hsound := Sound.toLazy (h.sound i r hr)
    have hcut : Cut (toLazy r) (alignDown boundary pageSize) _ :=
      .of_sound hsound (dvd_alignDown ..) (by rw [h1]; exact hin.1) (by rw [h2]; exact hin.2)
    -- Both parts are not empty, and both are counted again.
    have hleft := h.leaves.put_back hr (Sound.splitLeft hsound hcut) ⟨.inl hcut.lo, rfl⟩ h1.ge
      (hcut.hi.le.trans h2.le)
    refine (hleft.same (sameTable_reserve _)).put (reserve_spec _).2.1
      (Sound.splitRight hsound hcut) ⟨.inl hcut.hi, rfl⟩ fun j q _ hq => ?_
    rw [(sameTable_reserve _).vma, vma_put (lt_of_vma hr)] at hq
    split at hq
    · -- The two parts meet at the boundary.
      rw [← Option.some.inj hq]
      exact .inr (.inl (show alignDown boundary pageSize ≤ alignDown boundary pageSize from le_rfl))
    · next hj => exact (h.apart i j r q (Ne.symm hj) hr hq).of_sub (h1 ▸ hcut.lo.le) h2.le

theorem splitTwo (vm : Vm) (virt stop : Nat) : Leaves as (as.splitTwo vm virt stop).1 :=
  (h.splitAt vm virt).trans ((h.splitAt vm virt).toLayout.splitAt ..)

theorem unmapRange (vm : Vm) (virt len : Nat) : Leaves as (as.unmapRange vm virt len).1 := by
  rw [AddressSpace.unmapRange]
  split
  · exact h.leaves
  dsimp only
  split
  · exact h.leaves
  refine (h.splitTwo ..).mapSlots fun r r' hs hw hf => ?_
  split at hf
  · contradiction
  · exact Option.some.inj hf ▸ ⟨hs, hw, le_rfl, le_rfl⟩

theorem discardRange (vm : Vm) (virt len : Nat) : Leaves as (as.discardRange vm virt len).2.1 := by
  rw [AddressSpace.discardRange]
  split
  · exact h.leaves
  split
  · exact h.leaves
  refine h.leaves.mapSlots fun r r' hs hw hf => ?_
  rw [← Option.some.inj hf]
  have hsame := fun l => sameVma_dropPages l r
  exact ⟨Sound.dropPages hs (present_discarded _ _ r), hw.discarded .., (hsame _).start.ge,
    (hsame _).stop.le⟩

theorem mprotect (env : Env) (vm : Vm) (addr len : Nat) (prot : Prot) :
    Leaves as (as.mprotect env vm addr len prot).2.1 := by
  rw [AddressSpace.mprotect]
  split
  · exact h.leaves
  dsimp only
  split
  · exact h.leaves
  refine (h.splitTwo ..).mapSlots fun r r' hs hw hf => ?_
  rw [← Option.some.inj hf, protect]
  split
  · exact ⟨⟨⟨hs.start_dvd, hs.stop_dvd, hs.le, hs.stop_lt⟩, hs.below⟩,
      ⟨hw.proper, hw.counted⟩, le_rfl, le_rfl⟩
  · exact ⟨hs, hw, le_rfl, le_rfl⟩

/-- A region grows into addresses that nobody has. -/
theorem growInPlace {addr oldLen newLen : Nat} (hup : GrowsUp as addr oldLen newLen) :
    Leaves as (as.growInPlace addr oldLen newLen).2 := by
  rw [AddressSpace.growInPlace]
  split
  · exact h.leaves
  · next haddr =>
    cases hold : checkedAdd addr oldLen with
    | none => exact h.leaves
    | some =>
      cases hnew : checkedAdd addr newLen with
      | none => exact h.leaves
      | some =>
        dsimp only
        obtain ⟨rfl, -⟩ := checkedAdd_eq_some.mp hold
        obtain ⟨rfl, hlt⟩ := checkedAdd_eq_some.mp hnew
        split
        · exact h.leaves
        · next i r hl =>
          split
          · exact h.leaves
          split
          · exact h.leaves
          · next hgrow =>
            split
            · exact h.leaves
            · next hfree =>
              obtain ⟨hr, hc⟩ := locate_eq_some hl
              -- what grows is a whole region at its end, into addresses that no other has
              have hstop : addr + oldLen = r.stop := by
                by_contra hne
                exact hgrow (.inl hne)
              obtain ⟨hd, hle⟩ := hup i r hl hstop
              have haddr : pageSize ∣ addr := Nat.dvd_of_mod_eq_zero (not_not.mp haddr)
              have hin := contains_iff.mp hc
              refine h.leaves.grow hr (haddr.add hd) hlt (by omega) (by omega) fun j q _ hq => ?_
              have := List.any_eq_false.mp (Bool.not_eq_true _ ▸ hfree) q (mem_vmas.mpr ⟨j, hq⟩)
              simp only [Bool.and_eq_true, decide_eq_true_eq] at this
              omega

/-- `brk` keeps the table, with a break that makes sense (`BreakAbove`). -/
theorem brk (vm : Vm) {newEnd : Nat} (hb : BreakAbove as newEnd) :
    Leaves as (as.brk vm newEnd).2.1 := by
  rw [AddressSpace.brk]
  split
  · exact h.leaves
  · next h0 =>
    split
    · exact h.leaves
    · next hheap =>
      have hd : alignUp newEnd pageSize < usizeLimit := (alignDown_le ..).trans_lt (Nat.mod_lt _ (by norm_num))
      have hdvd : pageSize ∣ alignUp newEnd pageSize := dvd_alignUp ..
      cases hl : as.heapVma with
      | none =>
        dsimp only
        split
        · exact h.leaves
        · next hlt =>
          -- The break is rounded already, so its distance to the heap does not wrap.
          have hfit : SizeFits (alignUp newEnd pageSize - as.heapStart) := by
            obtain ⟨k, hk⟩ : 4096 ∣ alignUp newEnd pageSize := hdvd
            have hu : usizeLimit = 4096 * 4503599627370496 := rfl
            show alignUp newEnd pageSize - as.heapStart + 4095 < usizeLimit
            omega
          have hmap := h.mapLazy as.heapStart { writable := true } hfit false
          generalize as.mapLazy as.heapStart (alignUp newEnd pageSize - as.heapStart)
            { writable := true } false = m at hmap ⊢
          obtain ⟨ok, as₁⟩ := m
          cases ok with
          | true => exact hmap.setHeapEnd _
          | false => exact hmap
      | some out =>
        obtain ⟨i, r⟩ := out
        obtain ⟨hr, hstart⟩ := locate_eq_some hl
        have hstart : r.start = as.heapStart := by simpa using hstart
        have hn : as.heapStart ≤ alignUp newEnd pageSize := hb h0 hheap (by rw [hl]; simp)
        have hs := h.sound i r hr
        have hw := h.whole i r hr
        dsimp only
        rw [moveBreak]
        split
        · exact h.leaves
        split
        · next hgt =>
          split
          · exact h.leaves
          · next htaken =>
            have := hw.proper
            exact (h.leaves.grow hr hdvd hd hgt.le (by omega) fun j q hj hq =>
              takenBy_eq_false (by simpa using htaken) hj hq).setHeapEnd _
        · have hlt : alignUp newEnd pageSize < r.stop := by omega
          obtain ⟨h1, h2⟩ := shrunk_range r (alignUp newEnd pageSize)
          exact (h.leaves.put_back hr (Sound.shrunk hs hdvd (hstart ▸ hn) hlt)
            (hw.shrunk hn hstart) h1.ge (h2.le.trans hlt.le)).setHeapEnd _

end Layout

/-! ### Whole runs -/

/-- A call on an address space. -/
inductive Op
  | map (virt size : Nat) (flags : PageFlags)
  | mapDevice (virt phys size : Nat) (flags : PageFlags)
  | mapLazy (virt size : Nat) (flags : PageFlags) (isShared : Bool)
  | mapSharedFrames (virt : Nat) (frames : List Nat) (flags : PageFlags)
  | mapLazyFile (virt size : Nat) (flags : PageFlags) (fileCap : FileCap) (fileOff fileLen : Nat)
  | mapPrivateFile (virt size : Nat) (flags : PageFlags) (fileCap : FileCap) (fileOff : Nat)
  | mapSharedFile (virt size : Nat) (flags : PageFlags) (fileCap : FileCap) (fileOff : Nat)
  | splitAt (boundary : Nat)
  | unmapRange (virt len : Nat)
  | discardRange (virt len : Nat)
  | mprotect (addr len : Nat) (prot : Prot)
  | growInPlace (addr oldLen newLen : Nat)
  | brk (newEnd : Nat)
  | planUserPageFault (va : Nat) (isWrite : Bool)
  | installFileFault (p : FileFault) (data : List Nat) (got : Int)

/-- The call's effect; `none`: a panic. -/
def Op.run (env : Env) (as : AddressSpace) (vm : Vm) : Op → Option (AddressSpace × Vm)
  | .map virt size flags => some (as.map env vm virt size flags).2
  | .mapDevice virt phys size flags => some (as.mapDevice env vm virt phys size flags).2
  | .mapLazy virt size flags isShared => some ((as.mapLazy virt size flags isShared).2, vm)
  | .mapSharedFrames virt frames flags => some (as.mapSharedFrames env vm virt frames flags).2
  | .mapLazyFile virt size flags fileCap fileOff fileLen =>
    some ((as.mapLazyFile virt size flags fileCap fileOff fileLen).2, vm)
  | .mapPrivateFile virt size flags fileCap fileOff =>
    some ((as.mapPrivateFile virt size flags fileCap fileOff).2, vm)
  | .mapSharedFile virt size flags fileCap fileOff =>
    some ((as.mapSharedFile virt size flags fileCap fileOff).2, vm)
  | .splitAt boundary => some (as.splitAt vm boundary).2
  | .unmapRange virt len => some (as.unmapRange vm virt len)
  | .discardRange virt len => some (as.discardRange vm virt len).2
  | .mprotect addr len prot => some (as.mprotect env vm addr len prot).2
  | .growInPlace addr oldLen newLen => some ((as.growInPlace addr oldLen newLen).2, vm)
  | .brk newEnd => some (as.brk vm newEnd).2
  | .planUserPageFault va isWrite => some (as.planUserPageFault env vm va isWrite).2
  | .installFileFault p data got => (as.installFileFault env vm p data got).map (·.2)

/-- The arguments a call keeps the layout for. -/
def Op.Tame (as : AddressSpace) : Op → Prop
  | .map _ size _ | .mapDevice _ _ size _ | .mapLazy _ size _ _ | .mapLazyFile _ size _ _ _ _
  | .mapPrivateFile _ size _ _ _ | .mapSharedFile _ size _ _ _ => SizeFits size
  | .mapSharedFrames _ frames _ => Fits frames ∧ 0 ∉ frames
  | .growInPlace addr oldLen newLen => GrowsUp as addr oldLen newLen
  | .brk newEnd => BreakAbove as newEnd
  | _ => True

instance (as : AddressSpace) (addr oldLen newLen : Nat) : Decidable (GrowsUp as addr oldLen newLen) :=
  decidable_of_iff ((as.locate (·.contains addr)).all fun e =>
      decide (addr + oldLen = e.2.stop → pageSize ∣ newLen ∧ oldLen ≤ newLen)) (by
    rw [Option.all_eq_true]
    exact ⟨fun h i r hl => of_decide_eq_true (h (i, r) hl), fun h e he => decide_eq_true (h e.1 e.2 he)⟩)

instance (as : AddressSpace) (op : Op) : Decidable (op.Tame as) := by
  cases op <;> unfold Op.Tame Fits <;> infer_instance

namespace Layout

variable {as : AddressSpace} {vm : Vm} {env : Env}

theorem new {root heapStart : Nat} (h : pageSize ∣ heapStart) :
    Layout { AddressSpace.new root with heapStart := heapStart } := by
  have hvma : ∀ i, ({ AddressSpace.new root with heapStart := heapStart } : AddressSpace).vma i = none := by
    intro i
    show (List.replicate 128 (none : Option VmaRegion))[i]?.join = none
    rw [List.getElem?_replicate]
    split <;> rfl
  refine ⟨⟨h, fun i r hr => ?_, fun i j r q _ hr _ => ?_⟩, fun i r hr => ?_⟩ <;>
    exact absurd ((hvma i).symm.trans hr) (by simp)

/-- **One call.** -/
theorem run {op : Op} {out : AddressSpace × Vm} (h : Layout as) (hok : op.Tame as)
    (hs : op.run env as vm = some out) : Leaves as out.1 := by
  cases op with
  | installFileFault =>
    obtain ⟨f, hin, rfl⟩ := Option.map_eq_some_iff.mp hs
    exact h.installFileFault hin
  | map => exact Option.some.inj hs ▸ h.map _ _ hok _ _
  | mapDevice => exact Option.some.inj hs ▸ h.mapDevice _ _ hok _ _ _
  | mapLazy => exact Option.some.inj hs ▸ h.mapLazy _ _ hok _
  | mapSharedFrames => exact Option.some.inj hs ▸ h.mapSharedFrames _ _ _ _ hok.1 hok.2
  | mapLazyFile | mapPrivateFile | mapSharedFile =>
    exact Option.some.inj hs ▸ h.mapLazyFileWith _ _ hok _ _ _ _
  | splitAt => exact Option.some.inj hs ▸ h.splitAt ..
  | unmapRange => exact Option.some.inj hs ▸ h.unmapRange ..
  | discardRange => exact Option.some.inj hs ▸ h.discardRange ..
  | mprotect => exact Option.some.inj hs ▸ h.mprotect ..
  | growInPlace => exact Option.some.inj hs ▸ h.growInPlace hok
  | brk => exact Option.some.inj hs ▸ h.brk _ hok
  | planUserPageFault => exact Option.some.inj hs ▸ h.planUserPageFault ..

end Layout

/-- An address space as `exec` starts with it, in any memory. -/
def Fresh (s : AddressSpace × Vm) : Prop :=
  ∃ root heapStart, pageSize ∣ heapStart ∧
    s.1 = { AddressSpace.new root with heapStart := heapStart }

/-- The next call of a run. -/
def call (s : AddressSpace × Vm) (a : Env × Op) : Option (AddressSpace × Vm) := a.2.run a.1 s.1 s.2

/-- **The VMA table over every run of tame calls.** -/
theorem layout_kept {s : AddressSpace × Vm}
    (h : Reachable Fresh (fun s (a : Env × Op) => a.2.Tame s.1) call s) :
    (∀ i r, s.1.vma i = some r → pageSize ∣ r.start ∧ pageSize ∣ r.stop ∧
      (r.start < r.stop ∨ r.start = s.1.heapStart ∧ r.stop = s.1.heapStart) ∧
      (∀ idx, r.lazyPages.slot idx ≠ 0 → idx < r.pages) ∧ r.lazyCount = r.lazyPages.countPresent) ∧
    ∀ i j r q va, i ≠ j → s.1.vma i = some r → s.1.vma j = some q →
      ¬(r.contains va = true ∧ q.contains va = true) := by
  have hl : Layout s.1 := by
    refine h.invariant (P := fun s => Layout s.1) (fun s hs => ?_) fun s a s' hl hok hs =>
      (hl.run hok hs).toLayout
    obtain ⟨root, heapStart, hd, he⟩ := hs
    exact he ▸ Layout.new hd
  refine ⟨fun i r hr => ?_, fun i j r q va hij hr hq => (hl.apart i j r q hij hr hq).not_both va⟩
  have hs := hl.sound i r hr
  have hw := hl.whole i r hr
  exact ⟨hs.start_dvd, hs.stop_dvd, hw.proper, hs.below, hw.counted⟩

/-! ### Two runs -/

/-- An address space with its heap at `0x2000`, and no memory in use. -/
def heapAt2000 : AddressSpace × Vm :=
  ({ AddressSpace.new 1 with heapStart := 0x2000 }, ⟨⟨.init, ⟨.empty, ∅, 0⟩, fun _ _ => 0⟩, fun _ _ => none⟩)

theorem fresh_heapAt2000 : Fresh heapAt2000 := ⟨1, 0x2000, by decide, rfl⟩

/-- Every page-table write succeeds, and the next frame is `f`. -/
def frameEnv (f : Nat) : Env := ⟨fun _ => some f, fun _ _ => true, fun cap => cap⟩

/-- The first VMA: its range, the frame of its first page and its page count. -/
def firstVma (s : AddressSpace × Vm) : Option (Nat × Nat × Nat × Nat) :=
  (s.1.vma 0).map fun r => (r.start, r.stop, r.lazyPages.slot 0, r.lazyCount)

/-- A heap of two pages, one of them touched. -/
theorem layout_kept_heap : ∃ s, Reachable Fresh (fun s (a : Env × Op) => a.2.Tame s.1) call s ∧
      ∃ r, s.1.vma 0 = some r ∧ r.lazyPages.slot 0 = 0x9000 ∧ r.lazyPages.countPresent = 1 := by
  have hrun : (replay (fun s a => a.2.Tame s.1) call heapAt2000
      [(frameEnv 0, .brk 0x4000), (frameEnv 0x9000, .planUserPageFault 0x2000 true)]).bind firstVma =
      some (0x2000, 0x4000, 0x9000, 1) := by decide +kernel
  obtain ⟨s, hs, hv⟩ := Option.bind_eq_some_iff.mp hrun
  obtain ⟨r, hr, he⟩ := Option.map_eq_some_iff.mp hv
  simp only [Prod.mk.injEq] at he
  obtain ⟨-, -, hslot, hcount⟩ := he
  have hreach := (Reachable.start fresh_heapAt2000).replay hs
  obtain ⟨-, -, -, -, hc⟩ := (layout_kept hreach).1 0 r hr
  exact ⟨s, hreach, r, hr, hslot, hc ▸ hcount⟩

/-- **The user's break, unchecked**: `brk` below the heap's start leaves a VMA that ends
before it starts. -/
theorem break_below_heap_start : ∃ s, Reachable Fresh (fun _ (_ : Env × Op) => True) call s ∧
      ∃ r, s.1.vma 0 = some r ∧ r.stop < r.start := by
  have hrun : (replay (fun _ _ => True) call heapAt2000
      [(frameEnv 0, .brk 0x4000), (frameEnv 0, .brk 0x1000)]).bind firstVma =
      some (0x2000, 0x1000, 0, 0) := by decide +kernel
  obtain ⟨s, hs, hv⟩ := Option.bind_eq_some_iff.mp hrun
  obtain ⟨r, hr, he⟩ := Option.map_eq_some_iff.mp hv
  simp only [Prod.mk.injEq] at he
  obtain ⟨hstart, hstop, -⟩ := he
  exact ⟨s, (Reachable.start fresh_heapAt2000).replay hs, r, hr, by rw [hstart, hstop]; decide⟩

end Leandros.Mm.Vmm
