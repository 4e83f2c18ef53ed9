import Leandros.Mm.Buddy.Lists

/-!
# Leandros.Mm.Buddy.Pool

**The free pool as a set of pages.** `freeSet L` collects the pages of all listed
blocks; over `Rep`, each allocator operation is an equation about it:

* `free_pool` — `free` adds the block's pages;
* `allocUntracked_pool`, `allocBelowUntracked_pool` — a successful allocation
  removes the pages of one aligned block.

`Pool s L` packages what holds between calls: the representation, the page
counter and the absence of unmerged buddies.

`free` merges upwards: `coalesce_pool` is the loop, in which the block in hand and its buddy become
one block of the next order while the set of free pages stays the same. Allocation splits
downwards and puts the upper halves back (`splitDown_pool`); no two of them are buddies, as each is
of another order.
-/

namespace Leandros.Mm

open Function (update update_of_ne update_self)
open Finset (card_le_card disjoint_left mem_sdiff mem_union range union_assoc)

/-- The pages of all listed blocks. -/
def freeSet (L : Nat → List Nat) : Finset Nat :=
  (range maxOrder).biUnion fun o => (L o).toFinset.biUnion (blockPages o)

variable {L : Nat → List Nat}

theorem mem_freeSet {p : Nat} : p ∈ freeSet L ↔ ∃ o < maxOrder, ∃ a ∈ L o, p ∈ blockPages o a := by
  simp [freeSet]

theorem disjoint_freeSet {t : Finset Nat} :
    Disjoint t (freeSet L) ↔ ∀ o < maxOrder, ∀ a ∈ L o, Disjoint t (blockPages o a) := by
  simp [freeSet, Finset.disjoint_biUnion_right]

theorem blockPages_subset_freeSet {o a : Nat} (ho : o < maxOrder)
    (ha : a ∈ L o) : blockPages o a ⊆ freeSet L := fun _ hp =>
  mem_freeSet.mpr ⟨o, ho, a, ha, hp⟩

/-- No two buddies below the top order are both listed. -/
def NoBuddies (L : Nat → List Nat) : Prop :=
  ∀ o, o + 1 < maxOrder → ∀ a ∈ L o, a ^^^ (pageSize <<< o) ∉ L o

/-! ### Block arithmetic in pages -/

theorem div_pageSize_xor (a o : Nat) :
    (a ^^^ (pageSize <<< o)) / pageSize = a / pageSize ^^^ 2 ^ o := by
  have h : (a ^^^ (pageSize <<< o)) >>> 12 = a >>> 12 ^^^ (pageSize <<< o) >>> 12 :=
    Nat.shiftRight_xor_distrib
  rw [Nat.shiftRight_eq_div_pow, Nat.shiftRight_eq_div_pow, Nat.shiftRight_eq_div_pow,
    blockSize_mul, ← pageSize_eq, Nat.mul_div_cancel_left _ pageSize_pos] at h
  rwa [blockSize_mul]

theorem two_pow_dvd_page {o a : Nat} (h : pageSize <<< o ∣ a) : 2 ^ o ∣ a / pageSize := by
  obtain ⟨k, rfl⟩ := h
  rw [blockSize_mul, mul_assoc, Nat.mul_div_cancel_left _ pageSize_pos]
  exact dvd_mul_right _ _

/-- A merged block is the block and its buddy. -/
theorem blockPages_merge {o a : Nat} (h : pageSize <<< o ∣ a) :
    blockPages (o + 1) (min a (a ^^^ (pageSize <<< o))) =
      blockPages o a ∪ blockPages o (a ^^^ (pageSize <<< o)) := by
  have hmin : min a (a ^^^ (pageSize <<< o)) / pageSize =
      min (a / pageSize) (a / pageSize ^^^ 2 ^ o) := by
    rw [← div_pageSize_xor]
    rcases le_total a (a ^^^ (pageSize <<< o)) with hle | hle
    · rw [min_eq_left hle, min_eq_left (Nat.div_le_div_right hle)]
    · rw [min_eq_right hle, min_eq_right (Nat.div_le_div_right hle)]
  rw [blockPages, hmin, Dyadic.Ico_min_buddy (two_pow_dvd_page h), blockPages, blockPages,
    div_pageSize_xor]

/-- A split block is its two halves. -/
theorem blockPages_split (o a : Nat) :
    blockPages (o + 1) a = blockPages o a ∪ blockPages o (a + (pageSize <<< o)) := by
  ext p
  rw [mem_union, mem_blockPages, mem_blockPages, mem_blockPages, blockSize_mul,
    Nat.add_mul_div_left _ _ pageSize_pos]
  have : 0 < 2 ^ o := by positivity
  omega

theorem disjoint_halves (o a : Nat) :
    Disjoint (blockPages o a) (blockPages o (a + (pageSize <<< o))) := by
  rw [disjoint_left]
  intro p
  rw [mem_blockPages, mem_blockPages, blockSize_mul, Nat.add_mul_div_left _ _ pageSize_pos]
  omega

namespace Buddy

/-! ### Reserved ranges under merging and splitting -/

/-- A range meets a block iff it meets one of its halves. -/
theorem overlapsRange_halves {a n : Nat} {r : Nat × Nat} (h : r.1 ≤ r.2) :
    overlapsRange a (n + n) r = (overlapsRange a n r || overlapsRange (a + n) n r) := by
  rw [Bool.eq_iff_iff]
  simp only [overlapsRange, Bool.or_eq_true, Bool.and_eq_true, bne_iff_ne, decide_eq_true_eq]
  omega

variable {s : Buddy} {order : Nat}

theorem overlapsReserved_halves (h : s.ConfigOk) (a n : Nat) :
    s.overlapsReserved a (n + n) = (s.overlapsReserved a n || s.overlapsReserved (a + n) n) := by
  have h1 := overlapsRange_halves (a := a) (n := n) (h.ranges _ (.head _))
  have h2 : s.reserved.any (overlapsRange a (n + n)) =
      (s.reserved.any (overlapsRange a n) || s.reserved.any (overlapsRange (a + n) n)) := by
    rw [Bool.eq_iff_iff]
    simp only [Bool.or_eq_true, List.any_eq_true]
    constructor
    · rintro ⟨r, hr, ho⟩
      rw [overlapsRange_halves (h.ranges r (.tail _ hr)), Bool.or_eq_true] at ho
      exact ho.imp (fun ho => ⟨r, hr, ho⟩) (fun ho => ⟨r, hr, ho⟩)
    · rintro (⟨r, hr, ho⟩ | ⟨r, hr, ho⟩) <;>
        exact ⟨r, hr, by rw [overlapsRange_halves (h.ranges r (.tail _ hr)), ho];
                         simp⟩
  simp only [overlapsReserved, h1, h2]
  cases overlapsRange a n (s.bitmapPhys, s.bitmapPhysEnd) <;>
    cases overlapsRange (a + n) n (s.bitmapPhys, s.bitmapPhysEnd) <;>
    cases s.reserved.any (overlapsRange a n) <;> simp

theorem blockSize_succ (o : Nat) : pageSize <<< (o + 1) = pageSize <<< o + pageSize <<< o := by
  rw [blockSize_mul, blockSize_mul]
  ring

/-- Merging two good buddies gives a good block. -/
theorem GoodBlock.merge {o a : Nat} (hc : s.ConfigOk) (h : s.GoodBlock o a)
    (hb : s.GoodBlock o (a ^^^ (pageSize <<< o))) :
    s.GoodBlock (o + 1) (min a (a ^^^ (pageSize <<< o))) := by
  have ha := h.aligned
  have hpos := blockSize_pos o
  have hx := Dyadic.xor_two_pow (blockSize_eq o ▸ ha)
  rw [← blockSize_eq] at hx
  have hal : pageSize <<< (o + 1) ∣ min a (a ^^^ (pageSize <<< o)) := by
    rw [blockSize_eq, blockSize_eq, ← add_assoc]
    exact Dyadic.dvd_min_buddy (blockSize_eq o ▸ ha)
  -- the block is the lower or the upper of the two buddies
  have hcases : (min a (a ^^^ (pageSize <<< o)) = a ∧ a ^^^ (pageSize <<< o) = a + pageSize <<< o) ∨
      (min a (a ^^^ (pageSize <<< o)) = a ^^^ (pageSize <<< o) ∧
        a = (a ^^^ (pageSize <<< o)) + pageSize <<< o) := by
    split at hx
    · exact .inl ⟨min_eq_left (by omega), hx⟩
    · next hd =>
      have hle := Dyadic.two_pow_le_of_not_dvd (blockSize_eq o ▸ ha) hd
      rw [← blockSize_eq] at hle
      exact .inr ⟨min_eq_right (by omega), by omega⟩
  refine ⟨hal, le_min h.low hb.low, ?_, ?_⟩
  · rw [blockSize_succ]
    have h1 := h.ram
    have h2 := hb.ram
    omega
  · rw [blockSize_succ, overlapsReserved_halves hc]
    rcases hcases with ⟨e, e'⟩ | ⟨e, e'⟩
    · rw [e, ← e', h.clear, hb.clear]; rfl
    · rw [e, ← e', h.clear, hb.clear]; rfl

/-- Both halves of a good block are good. -/
theorem GoodBlock.split {o a : Nat} (hc : s.ConfigOk) (h : s.GoodBlock (o + 1) a) :
    s.GoodBlock o a ∧ s.GoodBlock o (a + (pageSize <<< o)) := by
  have ha := h.aligned
  have hr := h.ram
  have hcl := h.clear
  rw [blockSize_succ] at ha hr hcl
  rw [overlapsReserved_halves hc, Bool.or_eq_false_iff] at hcl
  have hd : pageSize <<< o ∣ a := (Nat.dvd_add (dvd_refl _) (dvd_refl _)).trans ha
  have hl := h.low
  have hpos := blockSize_pos o
  exact ⟨⟨hd, hl, by omega, hcl.1⟩, ⟨Nat.dvd_add hd (dvd_refl _), by omega, by omega, hcl.2⟩⟩

/-! ### Lists and pages -/

variable {s : Buddy} {L : Nat → List Nat} {o a : Nat}

theorem freeSet_push (ho : o < maxOrder) :
    freeSet (update L o (a :: L o)) = blockPages o a ∪ freeSet L := by
  ext p
  simp only [mem_union, mem_freeSet, mem_push]
  constructor
  · rintro ⟨o', ho', b, ⟨rfl, rfl⟩ | hb, hp⟩
    · exact .inl hp
    · exact .inr ⟨o', ho', b, hb, hp⟩
  · rintro (hp | ⟨o', ho', b, hb, hp⟩)
    · exact ⟨o, ho, a, .inl ⟨rfl, rfl⟩, hp⟩
    · exact ⟨o', ho', b, .inr hb, hp⟩

theorem freeSet_erase (h : s.Rep L) (ho : o < maxOrder) (ha : a ∈ L o) :
    freeSet (update L o ((L o).erase a)) = freeSet L \ blockPages o a := by
  ext p
  simp only [mem_sdiff, mem_freeSet, mem_unlist (h.nodup o ho)]
  constructor
  · rintro ⟨o', ho', b, ⟨hb, hne⟩, hp⟩
    exact ⟨⟨o', ho', b, hb, hp⟩, disjoint_left.mp (h.disj o' ho' o ho b hb a ha hne) hp⟩
  rintro ⟨⟨o', ho', b, hb, hp⟩, hn⟩
  refine ⟨o', ho', b, ⟨hb, ?_⟩, hp⟩
  by_contra! hx
  exact hn (hx.1 ▸ hx.2 ▸ hp)

theorem noBuddies_push (h : NoBuddies L) (hb : o + 1 < maxOrder → a ^^^ (pageSize <<< o) ∉ L o) :
    NoBuddies (update L o (a :: L o)) := by
  intro o' ho' x hx hbx
  have hself : x ^^^ (pageSize <<< o') ≠ x := by
    rw [blockSize_eq]
    exact Dyadic.xor_two_pow_ne
  rcases mem_push.mp hx with ⟨rfl, rfl⟩ | hxL
  · exact (mem_push.mp hbx).elim (fun hbx => hself hbx.1) (hb ho')
  rcases mem_push.mp hbx with ⟨rfl, rfl⟩ | hbx
  · refine hb ho' ?_
    rw [Nat.xor_assoc, Nat.xor_self, Nat.xor_zero]
    exact hxL
  · exact h o' ho' x hxL hbx

theorem noBuddies_erase (h : NoBuddies L) : NoBuddies (update L o ((L o).erase a)) := by
  intro o' ho' x hx hbx
  by_cases he : o' = o
  · subst he
    rw [update_self] at hx hbx
    exact h o' ho' x (List.mem_of_mem_erase hx) (List.mem_of_mem_erase hbx)
  · rw [update_of_ne he] at hx hbx
    exact h o' ho' x hx hbx

/-- What holds between two calls of the allocator. -/
structure Pool (s : Buddy) (L : Nat → List Nat) : Prop where
  rep : s.Rep L
  count : s.freePages = (freeSet L).card
  merged : NoBuddies L

/-- The representation does not read the counters, and stands when more RAM is found. -/
theorem Rep.counters (h : s.Rep L) (total free bad : Nat) (reports : List (Nat × Nat × BadFree))
    {e : Nat} (hle : s.physEnd ≤ e) (he : e ≤ 2 ^ 63) :
    { s with
      totalPages := total, freePages := free, badFrees := bad, reports, physEnd := e }.Rep L := by
  refine ⟨h.head, h.chain, h.order, h.nodup, fun o ho a ha => ?_, h.disj, h.bits,
    ⟨h.config.ptr, h.config.words, h.config.ranges, he⟩⟩
  have hg := h.good o ho a ha
  exact ⟨hg.aligned, hg.low, hg.ram.trans hle, hg.clear⟩

theorem Rep.withFree (h : s.Rep L) (n : Nat) : { s with freePages := n }.Rep L :=
  h.counters _ n _ _ le_rfl h.config.ram

/-- Every free page lies below the end of RAM. -/
theorem Rep.freeSet_subset (h : s.Rep L) : freeSet L ⊆ range (s.physEnd / pageSize) := by
  intro p hp
  obtain ⟨o, ho, a, ha, hp⟩ := mem_freeSet.mp hp
  have hg := h.good o ho a ha
  have hr := Nat.div_le_div_right (c := pageSize) hg.ram
  rw [blockSize_mul, Nat.add_mul_div_left _ _ pageSize_pos] at hr
  rw [mem_blockPages] at hp
  exact Finset.mem_range.mpr (by omega)

/-- The page counter never gets near the word size. -/
theorem Rep.card_freeSet_lt (h : s.Rep L) : (freeSet L).card < usizeLimit := by
  have h1 := card_le_card h.freeSet_subset
  rw [Finset.card_range] at h1
  have h2 := Nat.div_le_self s.physEnd pageSize
  have h3 := h.config.ram
  have h4 : (2 : Nat) ^ 63 < usizeLimit := by decide
  omega

/-! ### `free` -/

/-- **The merge loop.** The block joins the free pages, and no buddies are
left unmerged. -/
theorem coalesce_pool (n : Nat) : ∀ {s : Buddy} {L : Nat → List Nat} {addr order : Nat},
    order + n = maxOrder - 1 → s.Rep L → NoBuddies L → s.GoodBlock order addr →
    Disjoint (blockPages order addr) (freeSet L) →
    ∃ s' L', s.coalesce addr order n = some s' ∧ s'.Rep L' ∧ NoBuddies L' ∧
      freeSet L' = blockPages order addr ∪ freeSet L ∧ Same s s' := by
  induction n with
  | zero =>
    intro s L addr order ho h hn hg hd
    have ho' : order < maxOrder := by
      have : 0 < maxOrder := by decide
      omega
    exact ⟨_, _, rfl, pushFront_rep h ho' hg (disjoint_freeSet.mp hd),
      noBuddies_push hn (fun hlt => absurd hlt (by omega)), freeSet_push ho', same_pushFront _ _ _⟩
  | succ n ih =>
    intro s L addr order ho h hn hg hd
    have ho' : order < maxOrder := by omega
    -- Whenever the loop stops here, the buddy is not on this order's list.
    have hpush : addr ^^^ (pageSize <<< order) ∉ L order →
        ∃ s' L', some (s.pushFront order addr) = some s' ∧ s'.Rep L' ∧ NoBuddies L' ∧
          freeSet L' = blockPages order addr ∪ freeSet L ∧ Same s s' := fun hb =>
      ⟨_, _, rfl, pushFront_rep h ho' hg (disjoint_freeSet.mp hd), noBuddies_push hn fun _ => hb,
        freeSet_push ho', same_pushFront _ _ _⟩
    have hpage : pageSize ∣ addr ^^^ (pageSize <<< order) := by
      refine (pageSize_dvd_blockSize order).trans ?_
      rw [blockSize_eq]
      exact Dyadic.dvd_xor_two_pow (blockSize_eq order ▸ hg.aligned)
    rw [coalesce]
    by_cases hov : s.overlapsReserved (addr ^^^ (pageSize <<< order)) (pageSize <<< order) = true
    · rw [if_pos hov]
      refine hpush fun hb => ?_
      rw [(h.good order ho' _ hb).clear] at hov
      exact Bool.false_ne_true hov
    rw [if_neg hov, tryRemove_rep h ho' hpage]
    by_cases hb : addr ^^^ (pageSize <<< order) ∈ L order
    · -- The buddy is free: take it off its list and go on with the union.
      simp only [if_pos hb]
      have hsame := same_unlinked s order (addr ^^^ (pageSize <<< order))
      have hgm := GoodBlock.merge h.config hg (h.good order ho' _ hb)
      have hmp := blockPages_merge hg.aligned
      have hfe := freeSet_erase h ho' hb
      have hdm : Disjoint (blockPages (order + 1) (min addr (addr ^^^ (pageSize <<< order))))
          (freeSet (update L order
            ((L order).erase (addr ^^^ (pageSize <<< order))))) := by
        rw [hmp, hfe, Finset.disjoint_union_left]
        exact ⟨hd.mono_right Finset.sdiff_subset, Finset.disjoint_sdiff⟩
      obtain ⟨s', L', he, hr, hnb, hfs, hss⟩ :=
        ih (by omega) (unlinked_rep h ho' hb) (noBuddies_erase hn) (hgm.same hsame) hdm
      refine ⟨s', L', he, hr, hnb, ?_, hsame.trans hss⟩
      rw [hfs, hmp, hfe, union_assoc,
        Finset.union_sdiff_of_subset (blockPages_subset_freeSet ho' hb)]
    · simp only [if_neg hb]
      exact hpush hb

/-- `free` accepts a good block none of whose pages is free. -/
theorem freeCheck_good (h : s.Rep L) (ho : o < maxOrder) (hg : s.GoodBlock o a)
    (hd : Disjoint (blockPages o a) (freeSet L)) : s.freeCheck a o = none := by
  have hmask : a &&& (pageSize <<< o - 1) = 0 := by
    rw [blockSize_eq]
    exact Dyadic.and_mask_eq_zero.mpr (blockSize_eq o ▸ hg.aligned)
  have hbit : (s.covered a && s.headBit a) = false := by
    rw [Bool.and_eq_false_iff]
    by_contra! hc
    have hcov : s.covered a = true := by simpa using hc.1
    have hset : s.headBit a = true := by simpa using hc.2
    obtain ⟨o', ho', ha'⟩ := (h.bits a (by simpa [covered] using hcov) hg.page).mp hset
    exact disjoint_left.mp hd (head_mem_blockPages o a)
      (blockPages_subset_freeSet ho' ha' (head_mem_blockPages o' a))
  have hram := hg.ram
  rw [freeCheck, if_neg (by omega), if_neg hg.ne_zero, if_neg (by simpa using hmask),
    if_neg (by omega), if_neg (by simp [hg.clear]), if_neg (by simp [hbit])]

/-- What `free` leaves alone. -/
structure Frame (s s' : Buddy) : Prop where
  totalPages : s'.totalPages = s.totalPages
  physEnd : s'.physEnd = s.physEnd
  freeHeadPtr : s'.freeHeadPtr = s.freeHeadPtr
  coverEnd : s'.coverEnd = s.coverEnd
  bitmapPhys : s'.bitmapPhys = s.bitmapPhys
  bitmapPhysEnd : s'.bitmapPhysEnd = s.bitmapPhysEnd
  reserved : s'.reserved = s.reserved

theorem Frame.refl (s : Buddy) : Frame s s := by
  constructor <;> rfl

theorem Frame.trans {s' s'' : Buddy} (h : Frame s s') (h' : Frame s' s'') : Frame s s'' :=
  ⟨h'.1.trans h.1, h'.2.trans h.2, h'.3.trans h.3, h'.4.trans h.4, h'.5.trans h.5,
    h'.6.trans h.6, h'.7.trans h.7⟩

theorem Same.frame {s' : Buddy} (h : Same s s') : Frame s s' :=
  ⟨h.totalPages, h.physEnd, h.freeHeadPtr, h.coverEnd, h.bitmapPhys, h.bitmapPhysEnd, h.reserved⟩

theorem Frame.overlapsReserved {s' : Buddy} (h : Frame s s') (a n : Nat) :
    s'.overlapsReserved a n = s.overlapsReserved a n := by
  simp [Buddy.overlapsReserved, h.bitmapPhys, h.bitmapPhysEnd, h.reserved]

theorem GoodBlock.frame {s' : Buddy} (h : s.GoodBlock o a) (hs : Frame s s') : s'.GoodBlock o a :=
  ⟨h.aligned, h.low, by rw [hs.physEnd]; exact h.ram, by rw [hs.overlapsReserved]; exact h.clear⟩

/-- **`free`** of a good block outside the free pages adds its pages to them. -/
theorem free_pool (h : s.Pool L) (ho : o < maxOrder) (hg : s.GoodBlock o a)
    (hd : Disjoint (blockPages o a) (freeSet L)) :
    ∃ s' L', s.free a o = some s' ∧ s'.Pool L' ∧ freeSet L' = blockPages o a ∪ freeSet L ∧
      Frame s s' := by
  rw [free, freeCheck_good h.rep ho hg hd]
  have hcfg : Frame s { s with freePages := wadd s.freePages (1 <<< o) } := by
    constructor <;> rfl
  obtain ⟨s', L', he, hr, hn, hfs, hsame⟩ :=
    coalesce_pool (maxOrder - 1 - o) (by omega)
      (h.rep.withFree (wadd s.freePages (1 <<< o))) h.merged (hg.frame hcfg) hd
  refine ⟨s', L', he, ⟨hr, ?_, hn⟩, hfs, hcfg.trans hsame.frame⟩
  have hlt := hr.card_freeSet_lt
  have hcard : (freeSet L').card = 2 ^ o + (freeSet L).card := by
    rw [hfs, Finset.card_union_of_disjoint hd, card_blockPages]
  rw [hsame.freePages, wadd_of_lt (by rw [h.count, Nat.one_shiftLeft]; omega), h.count,
    Nat.one_shiftLeft, hcard, Nat.add_comm]

/-! ### Allocation -/

theorem splitDown_succ (s : Buddy) (order n addr : Nat) : s.splitDown order (order + (n + 1)) addr =
      (s.pushFront (order + n) (addr + (pageSize <<< (order + n)))).splitDown order (order + n)
        addr := by
  simp only [splitDown, Nat.add_sub_cancel_left]
  rw [List.range'_1_concat, List.reverse_append]
  rfl

/-- The buddy of an upper half is the lower half. -/
theorem xor_upper_half {addr m : Nat} (h : pageSize <<< (m + 1) ∣ addr) :
    (addr + (pageSize <<< m)) ^^^ (pageSize <<< m) = addr := by
  have hx : addr ^^^ (pageSize <<< m) = addr + (pageSize <<< m) := by
    rw [blockSize_eq, ← add_assoc] at h
    have hdvd : 2 ^ (12 + m) ∣ addr := (pow_dvd_pow 2 (Nat.le_succ _)).trans h
    rw [blockSize_eq, Dyadic.xor_two_pow hdvd, if_pos h]
  rw [← hx, Nat.xor_assoc, Nat.xor_self, Nat.xor_zero]

/-- **Splitting.** Of a block outside the free pages, everything but its
lowest `2 ^ order` pages becomes free. -/
theorem splitDown_pool (n : Nat) : ∀ {s : Buddy} {L : Nat → List Nat} {addr order : Nat},
    order + n < maxOrder → s.Rep L → NoBuddies L → s.GoodBlock (order + n) addr →
    Disjoint (blockPages (order + n) addr) (freeSet L) →
    ∃ L', (s.splitDown order (order + n) addr).Rep L' ∧ NoBuddies L' ∧
      freeSet L' = blockPages (order + n) addr \ blockPages order addr ∪ freeSet L ∧
      Same s (s.splitDown order (order + n) addr) ∧
      blockPages order addr ⊆ blockPages (order + n) addr := by
  induction n with
  | zero =>
    intro s L addr order _ h hn _ _
    have hs : s.splitDown order (order + 0) addr = s := by simp [splitDown]
    rw [hs]
    exact ⟨L, h, hn, by simp, .refl s, by simp⟩
  | succ n ih =>
    intro s L addr order ho h hn hg hd
    have ho' : order + n < maxOrder := by omega
    obtain ⟨hlo, hhi⟩ := GoodBlock.split h.config (o := order + n) hg
    have hsp := blockPages_split (order + n) addr
    rw [← add_assoc, hsp, Finset.disjoint_union_left] at hd
    have hsame := same_pushFront s (order + n) (addr + (pageSize <<< (order + n)))
    -- The pushed half's buddy is the part still being split, so it is not listed.
    have hbud : (addr + (pageSize <<< (order + n))) ^^^ (pageSize <<< (order + n)) ∉
        L (order + n) := by
      rw [xor_upper_half (m := order + n) hg.aligned]
      have hhead := head_mem_blockPages (order + n) addr
      exact fun ha => disjoint_left.mp hd.1 hhead (blockPages_subset_freeSet ho' ha hhead)
    obtain ⟨L', hr, hnb, hfs, hss, hsub⟩ :=
      ih ho' (pushFront_rep h ho' hhi (disjoint_freeSet.mp hd.2))
        (noBuddies_push hn fun _ => hbud) (hlo.same hsame)
        (by
          rw [freeSet_push ho', Finset.disjoint_union_right]
          exact ⟨disjoint_halves _ _, hd.1⟩)
    refine ⟨L', by rw [splitDown_succ]; exact hr, hnb, ?_,
      by rw [splitDown_succ]; exact hsame.trans hss, ?_⟩
    · have hdis : Disjoint (blockPages (order + n) (addr + (pageSize <<< (order + n))))
          (blockPages order addr) := ((disjoint_halves _ _).mono_left hsub).symm
      rw [hfs, freeSet_push ho', ← add_assoc, hsp, Finset.union_sdiff_distrib,
        Finset.sdiff_eq_self_of_disjoint hdis, union_assoc]
    · rw [← add_assoc, hsp]
      exact hsub.trans Finset.subset_union_left

/-- What a successful allocation of `2 ^ order` pages at `addr` does. -/
structure Allocated (s : Buddy) (L : Nat → List Nat) (order addr : Nat) (s' : Buddy) : Prop where
  good : s.GoodBlock order addr
  wasFree : blockPages order addr ⊆ freeSet L
  pool : ∃ L', s'.Pool L' ∧ freeSet L' = freeSet L \ blockPages order addr
  frame : Frame s s'

theorem GoodBlock.lower (hc : s.ConfigOk) (n : Nat) :
    ∀ {addr : Nat}, s.GoodBlock (order + n) addr → s.GoodBlock order addr := by
  induction n with
  | zero => exact fun h => h
  | succ n ih => exact fun h => ih (GoodBlock.split hc h).1

/-- Taking a listed block and keeping its lowest part, common to both
allocation functions. -/
theorem takeBlock_pool (h : s.Pool L) (hle : order ≤ o) (ho : o < maxOrder) (ha : a ∈ L o) :
    Allocated s L order a (((s.unlinked o a).splitDown order o a).chargeFree order) := by
  obtain ⟨n, rfl⟩ := Nat.exists_eq_add_of_le hle
  have hg := h.rep.good _ ho a ha
  have hsame := same_unlinked s (order + n) a
  have hsubB := blockPages_subset_freeSet ho ha
  obtain ⟨L', hr, hn, hfs, hss, hsub⟩ :=
    splitDown_pool n ho (unlinked_rep h.rep ho ha) (noBuddies_erase h.merged) (hg.same hsame)
      (by rw [freeSet_erase h.rep ho ha]; exact Finset.disjoint_sdiff)
  -- what the split put back and what it did not touch is all but the block itself
  have hfree : freeSet L' = freeSet L \ blockPages order a := by
    rw [hfs, freeSet_erase h.rep ho ha]
    ext p
    simp only [mem_union, mem_sdiff]
    constructor
    · rintro (⟨h1, h2⟩ | ⟨h1, h2⟩)
      · exact ⟨hsubB h1, h2⟩
      · exact ⟨h1, fun h3 => h2 (hsub h3)⟩
    · rintro ⟨h1, h2⟩
      by_cases h3 : p ∈ blockPages (order + n) a
      · exact .inl ⟨h3, h2⟩
      · exact .inr ⟨h1, h3⟩
  have hsub' : blockPages order a ⊆ freeSet L := hsub.trans hsubB
  refine ⟨GoodBlock.lower h.rep.config n hg, hsub', ⟨L', ⟨hr.withFree _, ?_, hn⟩, hfree⟩, ?_⟩
  · have hcard := card_le_card hsub'
    rw [card_blockPages] at hcard
    have hfp := (hsame.trans hss).freePages
    simp only [chargeFree]
    rw [hfp, h.count, Nat.one_shiftLeft, wsub_of_le hcard, hfree,
      Finset.card_sdiff_of_subset hsub', card_blockPages]
  · refine (hsame.trans hss).frame.trans ?_
    constructor <;> rfl

/-- The outcome of an allocation call: nothing, and nothing changed, or a block. -/
def AllocOutcome (s : Buddy) (L : Nat → List Nat) (order : Nat) (r : Option Nat × Buddy) : Prop :=
  (r.1 = none ∧ r.2 = s) ∨ ∃ addr, r.1 = some addr ∧ Allocated s L order addr r.2

/-- The answer of an order loop that looks for a listed block at an address
that `fits`: it gives up only if no list it went through has one. -/
structure Answers (s : Buddy) (L : Nat → List Nat) (order : Nat) (fits : Nat → Prop)
    (os : List Nat) (r : Option Nat × Buddy) : Prop where
  outcome : AllocOutcome s L order r
  within : ∀ addr, r.1 = some addr → fits addr
  exhausted : r.1 = none → ∀ o ∈ os, ∀ a ∈ L o, ¬fits a

theorem Answers.nil (s : Buddy) (L : Nat → List Nat) (order : Nat) (fits : Nat → Prop) :
    Answers s L order fits [] (none, s) :=
  ⟨.inl ⟨rfl, rfl⟩, by simp, by simp⟩

theorem Answers.cons {fits : Nat → Prop} {os : List Nat} {r : Option Nat × Buddy}
    (h : Answers s L order fits os r) (ho : ∀ a ∈ L o, ¬fits a) :
    Answers s L order fits (o :: os) r :=
  ⟨h.outcome, h.within, fun hn => List.forall_mem_cons.mpr ⟨ho, h.exhausted hn⟩⟩

theorem allocFrom_pool (h : s.Pool L) (os : List Nat) (hos : ∀ o ∈ os, order ≤ o ∧ o < maxOrder) :
    ∃ r, s.allocFrom order os = some r ∧ Answers s L order (fun _ => True) os r := by
  induction os with
  | nil => exact ⟨_, rfl, .nil ..⟩
  | cons o os ih =>
    obtain ⟨hle, ho⟩ := hos o (.head _)
    rw [allocFrom]
    cases hh : s.freeLists o with
    | none =>
      obtain ⟨r, hr, hans⟩ := ih fun o ho => hos o (.tail _ ho)
      rw [h.rep.head o ho, List.head?_eq_none_iff] at hh
      exact ⟨r, hr, hans.cons (by simp [hh])⟩
    | some addr =>
      have ha : addr ∈ L o := by
        rw [h.rep.head o ho] at hh
        exact List.mem_of_mem_head? hh
      simp only [popHead_eq_unlink h.rep ho hh, unlink_eq h.rep ho ha]
      exact ⟨_, rfl, .inr ⟨addr, rfl, takeBlock_pool h hle ho ha⟩, fun _ _ => trivial, nofun⟩

theorem allocBelowFrom_pool (h : s.Pool L) {limit : Nat} (os : List Nat)
    (hos : ∀ o ∈ os, order ≤ o ∧ o < maxOrder) : ∃ r, s.allocBelowFrom order limit os = some r ∧
      Answers s L order (fun a => a + (pageSize <<< order) ≤ limit) os r := by
  induction os with
  | nil => exact ⟨_, rfl, .nil ..⟩
  | cons o os ih =>
    obtain ⟨hle, ho⟩ := hos o (.head _)
    rw [allocBelowFrom, walk_rep h.rep ho]
    cases hf : (L o).find? (fun addr => decide (addr + (pageSize <<< order) ≤ limit)) with
    | none =>
      obtain ⟨r, hr, hans⟩ := ih fun o ho => hos o (.tail _ ho)
      exact ⟨r, hr, hans.cons (by simpa using hf)⟩
    | some addr =>
      have ha : addr ∈ L o := List.mem_of_find?_eq_some hf
      have hp := List.find?_some hf
      simp only [Option.bind_eq_bind, Option.bind_some, unlink_eq h.rep ho ha]
      refine ⟨_, rfl, .inr ⟨addr, rfl, takeBlock_pool h hle ho ha⟩, fun addr' he => ?_, nofun⟩
      cases he
      simpa using hp

theorem orders_from (order : Nat) :
    ∀ o ∈ List.range' order (maxOrder - order), order ≤ o ∧ o < maxOrder := by
  intro o ho
  rw [List.mem_range'_1] at ho
  omega

/-- **`alloc_untracked`** returns, and hands out free pages or changes nothing. -/
theorem allocUntracked_pool (h : s.Pool L) (order : Nat) : ∃ r, s.allocUntracked order = some r ∧
      Answers s L order (fun _ => True) (List.range' order (maxOrder - order)) r := by
  rw [allocUntracked]
  split
  · next ho =>
    rw [Nat.sub_eq_zero_of_le ho]
    exact ⟨_, rfl, .nil ..⟩
  · exact allocFrom_pool h _ (orders_from order)

/-- **`alloc_below_untracked`** does the same, below its limit. -/
theorem allocBelowUntracked_pool (h : s.Pool L) (order limit : Nat) :
    ∃ r, s.allocBelowUntracked order limit = some r ∧
      Answers s L order (fun a => a + (pageSize <<< order) ≤ limit)
        (List.range' order (maxOrder - order)) r := by
  rw [allocBelowUntracked]
  split
  · next ho =>
    rw [Nat.sub_eq_zero_of_le ho]
    exact ⟨_, rfl, .nil ..⟩
  · exact allocBelowFrom_pool h _ (orders_from order)

end Buddy

end Leandros.Mm
