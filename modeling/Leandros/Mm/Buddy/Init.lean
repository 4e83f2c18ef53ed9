import Leandros.Mm.Buddy.Pool

/-!
# Leandros.Mm.Buddy.Init

**`init_from_map` builds the pool.** After it the free pages are the **usable**
ones: the pages inside an Available region and above the first MiB that touch
neither a reserved range nor the bitmap (`initFromMap_pool`).

* The bitmap search always ends: a pass that moves the candidate leaves one
  more reserved slot behind it (`bumpLoop_some`).
* The order of a block that the walk releases is bounded by its alignment, by what is left of
  the region and by the reserved ranges in its way (`initOrder_good`).
* The walk of a region releases each of its usable pages once (`initWalk_pool`).
* Reserved ranges are rounded outwards to pages and stored in the first free slot, so the slots
  after a row of reservations are the rounded ranges in order (`reserveRanges_fresh`).
-/

namespace Leandros.Mm

/-- An Available region does not share a byte with another one. -/
def RegionsDisjoint (regions : List MemoryRegion) : Prop :=
  regions.Pairwise fun r r' => r.kind = .available → r'.kind = .available →
    ∀ x, ¬((r.base ≤ x ∧ x < r.base + r.length) ∧ (r'.base ≤ x ∧ x < r'.base + r'.length))

/-- Page `p` lies inside the region and above the first MiB. -/
def MemoryRegion.HasPage (r : MemoryRegion) (p : Nat) : Prop :=
  r.kind = .available ∧ r.base ≤ p * pageSize ∧ (p + 1) * pageSize ≤ r.base + r.length ∧
    lowReservedEnd ≤ p * pageSize

namespace Buddy

theorem region_fits (r : MemoryRegion) : r.base + (pageSize - 1) < usizeLimit := by
  have h := r.fits
  have hp : pageSize = 4096 := rfl
  simp only [usizeLimit]
  omega

theorem dvd_regionStart (r : MemoryRegion) : pageSize ∣ regionStart r := by
  rw [regionStart]
  rcases max_choice (alignUp r.base pageSize) lowReservedEnd with h | h <;> rw [h]
  · exact dvd_alignUp _ _
  · decide

theorem dvd_regionEnd (r : MemoryRegion) : pageSize ∣ regionEnd r := dvd_alignDown _ _

/-- The walked pages of a region are the ones it has. -/
theorem hasPage_iff (r : MemoryRegion) (p : Nat) :
    r.HasPage p ↔ r.kind = .available ∧ regionStart r / pageSize ≤ p ∧
      p < regionEnd r / pageSize := by
  have hdvd : pageSize ∣ p * pageSize := dvd_mul_left _ _
  have hdvd' : pageSize ∣ (p + 1) * pageSize := dvd_mul_left _ _
  have hs : regionStart r / pageSize ≤ p ↔
      r.base ≤ p * pageSize ∧ lowReservedEnd ≤ p * pageSize := by
    rw [← alignUp_le_iff pageSize_pos (region_fits r) hdvd, ← max_le_iff, ← regionStart]
    obtain ⟨k, hk⟩ := dvd_regionStart r
    rw [hk, Nat.mul_div_cancel_left _ pageSize_pos, mul_comm p,
      Nat.mul_le_mul_left_iff pageSize_pos]
  have he : p < regionEnd r / pageSize ↔ (p + 1) * pageSize ≤ r.base + r.length := by
    rw [← le_alignDown_iff pageSize_pos hdvd']
    exact Nat.le_div_iff_mul_le pageSize_pos
  rw [hs, he]
  exact ⟨fun ⟨hk, hb, hl, hm⟩ => ⟨hk, ⟨hb, hm⟩, hl⟩, fun ⟨hk, ⟨hb, hm⟩, hl⟩ => ⟨hk, hb, hl, hm⟩⟩

/-! ### Pages of good blocks -/

variable {s : Buddy} {L : Nat → List Nat} {r : PhysRange}

theorem GoodBlock.pages (hc : s.ConfigOk) {o : Nat} :
    ∀ {a p : Nat}, s.GoodBlock o a → p ∈ blockPages o a → s.GoodBlock 0 (p * pageSize) := by
  induction o with
  | zero =>
    intro a p h hp
    have hp' : p = a / pageSize := by
      rw [mem_blockPages] at hp
      omega
    rw [hp', Nat.div_mul_cancel h.page]
    exact h
  | succ o ih =>
    intro a p h hp
    obtain ⟨h1, h2⟩ := h.split hc
    rw [blockPages_split, Finset.mem_union] at hp
    exact hp.elim (ih h1) (ih h2)

/-- An aligned block is good when each of its pages is. -/
theorem goodBlock_of_pages (hc : s.ConfigOk) {o : Nat} :
    ∀ {a : Nat}, pageSize <<< o ∣ a → (∀ p ∈ blockPages o a, s.GoodBlock 0 (p * pageSize)) →
      s.GoodBlock o a := by
  induction o with
  | zero =>
    intro a ha h
    have hb := h _ (head_mem_blockPages 0 a)
    rwa [Nat.div_mul_cancel ((pageSize_dvd_blockSize 0).trans ha)] at hb
  | succ o ih =>
    intro a ha h
    have ha' : pageSize <<< o ∣ a := by
      rw [blockSize_succ] at ha
      exact (Nat.dvd_add (dvd_refl _) (dvd_refl _)).trans ha
    rw [blockPages_split] at h
    have h1 := ih ha' fun p hp => h p (Finset.mem_union_left _ hp)
    have h2 := ih (Nat.dvd_add ha' (dvd_refl _)) fun p hp => h p (Finset.mem_union_right _ hp)
    refine ⟨ha, h1.low, ?_, ?_⟩
    · rw [blockSize_succ, ← add_assoc]
      exact h2.ram
    · rw [blockSize_succ, overlapsReserved_halves hc, h1.clear, h2.clear]
      rfl

/-! ### The order of a released block -/

theorem two_pow_trailingZeros_dvd (n : Nat) (hn : n ≠ 0) : 2 ^ trailingZeros n ∣ n := by
  induction n using Nat.strong_induction_on with
  | _ n ih =>
    rw [trailingZeros, if_neg hn]
    split
    · simp
    · next h =>
      have hdvd := ih (n / 2) (by omega) (by omega)
      have h2 : n = 2 * (n / 2) := by omega
      rw [pow_succ, mul_comm]
      nth_rewrite 2 [h2]
      exact Nat.mul_dvd_mul_left 2 hdvd

theorem shrinkOrder_le (s : Buddy) (addr k : Nat) : s.shrinkOrder addr k ≤ k := by
  induction k with
  | zero => exact le_rfl
  | succ k ih =>
    rw [shrinkOrder]
    split
    · exact ih.trans (Nat.le_succ k)
    · exact le_rfl

theorem shrinkOrder_clear {addr : Nat} (h : s.overlapsReserved addr pageSize = false)
    (k : Nat) : s.overlapsReserved addr (pageSize <<< s.shrinkOrder addr k) = false := by
  induction k with
  | zero => exact h
  | succ k ih =>
    rw [shrinkOrder]
    split
    · exact ih
    · next hn => exact Bool.eq_false_of_not_eq_true hn

/-- The block released at `addr` is good and ends at or before `stop`. -/
theorem initOrder_good {addr stop : Nat} (ha : pageSize ∣ addr) (hs : pageSize ∣ stop)
    (hlt : addr < stop) (hlow : lowReservedEnd ≤ addr) (hram : stop ≤ s.physEnd)
    (hc : s.overlapsReserved addr pageSize = false) :
    s.initOrder addr stop < maxOrder ∧ addr + (pageSize <<< s.initOrder addr stop) ≤ stop ∧
      s.GoodBlock (s.initOrder addr stop) addr := by
  set o := s.initOrder addr stop
  -- the order is the least of three bounds, and shrinking only lowers it
  have hmin : o ≤ min (min (maxOrder - 1) (Nat.log2 ((stop - addr) / pageSize)))
      (min (trailingZeros (addr / pageSize)) (maxOrder - 1)) := shrinkOrder_le _ _ _
  simp only [le_min_iff] at hmin
  have hlow0 : 0 < lowReservedEnd := by decide
  have hpage : addr / pageSize ≠ 0 :=
    Nat.div_ne_zero_iff.mpr ⟨pageSize_pos.ne', Nat.le_of_dvd (by omega) ha⟩
  -- no more trailing zeros than the address has: aligned
  have hal : pageSize <<< o ∣ addr := by
    have h1 := (pow_dvd_pow 2 hmin.2.1).trans (two_pow_trailingZeros_dvd _ hpage)
    rw [blockSize_mul, ← Nat.div_mul_cancel ha, mul_comm]
    exact Nat.mul_dvd_mul_right h1 _
  -- no more pages than are left: it ends in time
  have hfit : addr + (pageSize <<< o) ≤ stop := by
    have hd : pageSize ∣ stop - addr := Nat.dvd_sub hs ha
    have hne : (stop - addr) / pageSize ≠ 0 :=
      Nat.div_ne_zero_iff.mpr ⟨pageSize_pos.ne', Nat.le_of_dvd (by omega) hd⟩
    have h1 : 2 ^ o ≤ (stop - addr) / pageSize :=
      (Nat.pow_le_pow_right (by decide) hmin.1.2).trans (Nat.log2_self_le hne)
    have h2 : 2 ^ o * pageSize ≤ stop - addr := by
      rw [← Nat.div_mul_cancel hd]
      exact Nat.mul_le_mul_right _ h1
    rw [blockSize_mul, mul_comm]
    omega
  refine ⟨?_, hfit, ⟨hal, hlow, hfit.trans hram, shrinkOrder_clear hc _⟩⟩
  have : 0 < maxOrder := by decide
  omega

/-! ### Walking a region -/

/-- A page touches nothing reserved. -/
def pageClear (s : Buddy) (p : Nat) : Prop := s.overlapsReserved (p * pageSize) pageSize = false

theorem mem_Ico_of_step {x y z p : Nat} (hxy : x ≤ y) (hyz : y ≤ z) :
    (x ≤ p ∧ p < z) ↔ (x ≤ p ∧ p < y) ∨ (y ≤ p ∧ p < z) := by
  omega

/-- **The walk** adds exactly the clear pages of `[addr, stop)`. -/
theorem initWalk_pool (n : Nat) : ∀ {s : Buddy} {L : Nat → List Nat} {addr stop : Nat},
    stop - addr ≤ n → s.Pool L → pageSize ∣ addr → pageSize ∣ stop → lowReservedEnd ≤ addr →
    stop ≤ s.physEnd → (∀ p ∈ freeSet L, ¬(addr / pageSize ≤ p ∧ p < stop / pageSize)) →
    ∃ s' L', s.initWalk addr stop = some s' ∧ s'.Pool L' ∧ Frame s s' ∧
      ∀ p, p ∈ freeSet L' ↔ p ∈ freeSet L ∨
        ((addr / pageSize ≤ p ∧ p < stop / pageSize) ∧ s.pageClear p) := by
  induction n with
  | zero =>
    intro s L addr stop hn h _ _ _ _ _
    have hle : stop / pageSize ≤ addr / pageSize := Nat.div_le_div_right (by omega)
    rw [initWalk, if_neg (by omega)]
    exact ⟨s, L, rfl, h, .refl s, fun p => ⟨.inl, fun hp => hp.elim id fun hp => by omega⟩⟩
  | succ n ih =>
    intro s L addr stop hn h ha hs hlow hram hout
    have hpos := pageSize_pos
    rw [initWalk]
    by_cases hlt : addr < stop
    swap
    · have hle : stop / pageSize ≤ addr / pageSize := Nat.div_le_div_right (by omega)
      rw [if_neg hlt]
      exact ⟨s, L, rfl, h, .refl s, fun p => ⟨.inl, fun hp => hp.elim id fun hp => by omega⟩⟩
    rw [if_pos hlt]
    have hle : addr + pageSize ≤ stop := by
      obtain ⟨k, rfl⟩ := ha
      obtain ⟨j, rfl⟩ := hs
      have hkj : k < j := lt_of_mul_lt_mul_left hlt (Nat.zero_le _)
      calc pageSize * k + pageSize = pageSize * (k + 1) := by ring
        _ ≤ pageSize * j := Nat.mul_le_mul_left _ hkj
    by_cases hc : s.overlapsReserved addr pageSize = true
    · -- A reserved page is skipped.
      rw [if_pos hc]
      have hstep : (addr + pageSize) / pageSize = addr / pageSize + 1 :=
        Nat.add_div_right _ hpos
      obtain ⟨s', L', he, hp, hf, hm⟩ := ih (by omega) h
        (Nat.dvd_add ha (dvd_refl _)) hs (by omega) hram
        (fun p hp hq => hout p hp (by omega))
      refine ⟨s', L', he, hp, hf, fun p => ?_⟩
      rw [hm, hstep]
      constructor
      · exact Or.imp_right fun hq => ⟨by omega, hq.2⟩
      refine Or.imp_right fun hq => ⟨⟨?_, hq.1.2⟩, hq.2⟩
      rcases hq.1.1.lt_or_eq with hq' | rfl
      · omega
      · have hcl := hq.2
        rw [pageClear, Nat.div_mul_cancel ha, hc] at hcl
        exact absurd hcl (by decide)
    · rw [if_neg hc]
      obtain ⟨ho, hfit, hg⟩ := initOrder_good ha hs hlt hlow hram
        (Bool.eq_false_of_not_eq_true hc)
      set o := s.initOrder addr stop
      have hsz := pageSize_le_blockSize o
      have hstep : (addr + (pageSize <<< o)) / pageSize = addr / pageSize + 2 ^ o := by
        rw [blockSize_mul, Nat.add_mul_div_left _ _ hpos]
      have hend : addr / pageSize + 2 ^ o ≤ stop / pageSize := by
        rw [← hstep]
        exact Nat.div_le_div_right hfit
      have hpow : 0 < 2 ^ o := by positivity
      have hdis : Disjoint (blockPages o addr) (freeSet L) := by
        rw [Finset.disjoint_right]
        intro p hp hb
        rw [mem_blockPages] at hb
        exact hout p hp (by omega)
      obtain ⟨s₁, L₁, he₁, hp₁, hf₁, hf₁'⟩ := free_pool h ho hg hdis
      obtain ⟨s', L', he, hp, hf, hm⟩ := ih (s := s₁)
        (by omega) hp₁ (Nat.dvd_add ha (pageSize_dvd_blockSize o)) hs (by omega)
        (by rw [hf₁'.physEnd]; exact hram)
        (fun p hp hq => by
          rw [hf₁, Finset.mem_union, mem_blockPages] at hp
          rcases hp with hp | hp
          · omega
          · exact hout p hp (by omega))
      refine ⟨s', L', by simp only [he₁, Option.bind_eq_bind, Option.bind_some]; exact he,
        hp, hf₁'.trans hf, fun p => ?_⟩
      have hclear : p ∈ blockPages o addr → s.pageClear p := fun hb =>
        (hg.pages h.rep.config hb).clear
      have hcc : s₁.pageClear p ↔ s.pageClear p := by
        rw [pageClear, pageClear, hf₁'.overlapsReserved]
      rw [hm, hf₁, Finset.mem_union, hstep, hcc, mem_Ico_of_step (Nat.le_add_right _ _) hend]
      rw [mem_blockPages] at hclear ⊢
      constructor
      · rintro ((hb | hl) | ⟨hq, hcl⟩)
        · exact .inr ⟨.inl hb, hclear hb⟩
        · exact .inl hl
        · exact .inr ⟨.inr hq, hcl⟩
      · rintro (hl | ⟨hb | hq, hcl⟩)
        · exact .inl (.inr hl)
        · exact .inl (.inl hb)
        · exact .inr ⟨hq, hcl⟩

/-- What the walk over the memory map leaves alone. -/
structure BootFrame (s s' : Buddy) : Prop where
  freeHeadPtr : s'.freeHeadPtr = s.freeHeadPtr
  coverEnd : s'.coverEnd = s.coverEnd
  bitmapPhys : s'.bitmapPhys = s.bitmapPhys
  bitmapPhysEnd : s'.bitmapPhysEnd = s.bitmapPhysEnd
  reserved : s'.reserved = s.reserved

theorem BootFrame.refl (s : Buddy) : BootFrame s s := by
  constructor <;> rfl

theorem BootFrame.trans {s' s'' : Buddy} (h : BootFrame s s') (h' : BootFrame s' s'') :
    BootFrame s s'' :=
  ⟨h'.1.trans h.1, h'.2.trans h.2, h'.3.trans h.3, h'.4.trans h.4, h'.5.trans h.5⟩

theorem Frame.boot {s' : Buddy} (h : Frame s s') : BootFrame s s' :=
  ⟨h.freeHeadPtr, h.coverEnd, h.bitmapPhys, h.bitmapPhysEnd, h.reserved⟩

theorem BootFrame.pageClear {s' : Buddy} (h : BootFrame s s') (p : Nat) :
    s'.pageClear p ↔ s.pageClear p := by
  simp [Buddy.pageClear, overlapsReserved, h.bitmapPhys, h.bitmapPhysEnd, h.reserved]

/-- Learning of more RAM keeps the representation; the total does not matter to it. -/
theorem Pool.raisePhysEnd (h : s.Pool L) (n : Nat) {e : Nat}
    (hle : s.physEnd ≤ e) (he : e ≤ 2 ^ 63) : { s with physEnd := e, totalPages := n }.Pool L :=
  ⟨h.rep.counters n _ _ _ hle he, h.count, h.merged⟩

theorem regionEnd_le (r : MemoryRegion) : regionEnd r ≤ 2 ^ 63 :=
  (alignDown_le _ _).trans r.fits

/-- A region adds its usable pages and nothing else. -/
theorem initRegion_pool (h : s.Pool L) (r : MemoryRegion) (hout : ∀ p ∈ freeSet L, ¬r.HasPage p) :
    ∃ s' L', s.initRegion r = some s' ∧ s'.Pool L' ∧ BootFrame s s' ∧
      ∀ p, p ∈ freeSet L' ↔ p ∈ freeSet L ∨ (r.HasPage p ∧ s.pageClear p) := by
  rw [initRegion]
  by_cases hk : r.kind = .available
  swap
  · rw [if_pos hk]
    exact ⟨s, L, rfl, h, .refl s, fun p => ⟨.inl, fun hp => hp.elim id fun hp =>
      absurd hp.1.1 hk⟩⟩
  rw [if_neg (not_not.mpr hk)]
  -- a region without a whole page above the low memory adds nothing
  by_cases hse : regionStart r ≥ regionEnd r
  · rw [if_pos hse]
    refine ⟨s, L, rfl, h, .refl s, fun p => ⟨.inl, fun hp => hp.elim id fun hp => ?_⟩⟩
    have hp' := ((hasPage_iff r p).mp hp.1).2
    have hle := Nat.div_le_div_right (c := pageSize) hse
    omega
  rw [if_neg hse]
  have hraise := h.raisePhysEnd s.totalPages (le_max_left _ _)
    (max_le h.rep.config.ram (regionEnd_le r))
  obtain ⟨s', L', he, hp, hf, hm⟩ := initWalk_pool _ le_rfl hraise (dvd_regionStart r)
    (dvd_regionEnd r) (le_max_right _ _) (le_max_right _ _)
    (fun p hp hq => hout p hp ((hasPage_iff r p).mpr ⟨hk, hq⟩))
  refine ⟨s', L', he, hp, BootFrame.trans (by constructor <;> rfl) hf.boot, fun p => ?_⟩
  rw [hm, hasPage_iff]
  exact or_congr_right (and_congr_left fun _ => ⟨fun hq => ⟨hk, hq⟩, And.right⟩)

/-- **The memory map.** Over all regions, exactly their clear pages are added. -/
theorem initRegions_pool (regions : List MemoryRegion) :
    ∀ {s : Buddy} {L : Nat → List Nat}, s.Pool L → RegionsDisjoint regions →
      (∀ r ∈ regions, ∀ p ∈ freeSet L, ¬r.HasPage p) →
      ∃ s' L', regions.foldlM initRegion s = some s' ∧ s'.Pool L' ∧ BootFrame s s' ∧
        ∀ p, p ∈ freeSet L' ↔ p ∈ freeSet L ∨ ((∃ r ∈ regions, r.HasPage p) ∧ s.pageClear p) := by
  induction regions with
  | nil => exact fun {s L} h _ _ => ⟨s, L, rfl, h, .refl s, fun p => by simp⟩
  | cons r regions ih =>
    intro s L h hd hout
    obtain ⟨hdr, hd'⟩ := List.pairwise_cons.mp hd
    obtain ⟨s₁, L₁, he₁, hp₁, hf₁, hm₁⟩ :=
      initRegion_pool h r (hout r (.head _))
    -- A page of a later region is not one of `r`'s: they would share its first byte.
    have hout₁ : ∀ r' ∈ regions, ∀ p ∈ freeSet L₁, ¬r'.HasPage p := by
      intro r' hr' p hp hp'
      rcases (hm₁ p).mp hp with hp | ⟨hp, -⟩
      · exact hout r' (.tail _ hr') p hp hp'
      have hlt : p * pageSize < (p + 1) * pageSize :=
        Nat.mul_lt_mul_of_pos_right (Nat.lt_succ_self p) pageSize_pos
      exact hdr r' hr' hp.1 hp'.1 (p * pageSize)
        ⟨⟨hp.2.1, hlt.trans_le hp.2.2.1⟩, ⟨hp'.2.1, hlt.trans_le hp'.2.2.1⟩⟩
    obtain ⟨s', L', he, hp, hf, hm⟩ := ih hp₁ hd' hout₁
    refine ⟨s', L', by rw [List.foldlM_cons, he₁]; exact he, hp, hf₁.trans hf, fun p => ?_⟩
    rw [hm, hm₁, hf₁.pageClear, List.exists_mem_cons_iff, or_and_right, or_assoc]

/-! ### Placing the bitmap -/

theorem bumpPass_le (bytes : Nat) (slots : List (Nat × Nat)) (cand : Nat) :
    cand ≤ bumpPass bytes slots cand := by
  refine List.foldlRecOn (motive := (cand ≤ ·)) slots _ le_rfl fun c hc r _ => ?_
  split
  · next h =>
    simp only [overlapsRange, Bool.and_eq_true, decide_eq_true_eq] at h
    omega
  · exact hc

/-- A pass that moves the candidate steps past a slot that was ahead of it. -/
theorem bumpPass_past {bytes : Nat} (slots : List (Nat × Nat)) :
    ∀ {cand}, bumpPass bytes slots cand ≠ cand →
      ∃ r ∈ slots, cand < r.2 ∧ r.2 ≤ bumpPass bytes slots cand := by
  induction slots with
  | nil => exact fun h => absurd rfl h
  | cons r slots ih =>
    intro cand h
    rw [bumpPass, List.foldl_cons] at h ⊢
    by_cases ho : overlapsRange cand bytes r = true
    · have hlt : cand < r.2 := by
        simp only [overlapsRange, Bool.and_eq_true, decide_eq_true_eq] at ho
        exact ho.1.2
      rw [if_pos ho]
      exact ⟨r, .head _, hlt, bumpPass_le bytes slots r.2⟩
    · rw [if_neg ho] at h ⊢
      obtain ⟨r', hr', h1, h2⟩ := ih h
      exact ⟨r', List.mem_cons_of_mem _ hr', h1, h2⟩

/-- The slots still ahead of the candidate. -/
def ahead (slots : List (Nat × Nat)) (cand : Nat) : Nat := slots.countP fun r => decide (cand < r.2)

theorem ahead_lt {slots : List (Nat × Nat)} {cand cand' : Nat} (hle : cand ≤ cand')
    (h : ∃ r ∈ slots, cand < r.2 ∧ r.2 ≤ cand') : ahead slots cand' < ahead slots cand := by
  obtain ⟨r, hr, h1, h2⟩ := h
  obtain ⟨l₁, l₂, rfl⟩ := List.append_of_mem hr
  have hmono (l : List (Nat × Nat)) : ahead l cand' ≤ ahead l cand :=
    List.countP_mono_left fun y _ hy => by
      simp only [decide_eq_true_eq] at hy ⊢
      exact hle.trans_lt hy
  have hl₁ := hmono l₁
  have hl₂ := hmono l₂
  simp only [ahead, List.countP_append, List.countP_cons] at hl₁ hl₂ ⊢
  rw [if_neg (by simpa using h2), if_pos (by simpa using h1)]
  omega

/-- The bump loop ends: each repeated pass leaves one more slot behind. -/
theorem bumpLoop_some {bytes : Nat} {slots : List (Nat × Nat)} (fuel : Nat) :
    ∀ {cand}, ahead slots cand < fuel → ∃ c, bumpLoop bytes slots fuel cand = some c := by
  induction fuel with
  | zero => exact fun h => absurd h (Nat.not_lt_zero _)
  | succ fuel ih =>
    intro cand h
    rw [bumpLoop]
    by_cases he : bumpPass bytes slots cand = cand
    · exact ⟨cand, by simp [he]⟩
    · simp only [if_neg he]
      exact ih ((ahead_lt (bumpPass_le ..) (bumpPass_past slots he)).trans_le (by omega))

/-- The top is page-aligned, no region ends above it, and it is a real address. -/
theorem bitmapTop_spec (regions : List MemoryRegion) :
    pageSize ∣ bitmapTop regions ∧ bitmapTop regions ≤ 2 ^ 63 ∧
      ∀ r ∈ regions, r.kind = .available → regionEnd r ≤ bitmapTop regions := by
  -- over any starting value, as the fold goes on from one region to the next
  suffices h : ∀ (regions : List MemoryRegion) top, pageSize ∣ top → top ≤ 2 ^ 63 →
      let t := regions.foldl (fun top r => if r.kind ≠ .available then top
        else if regionEnd r > top then regionEnd r else top) top
      pageSize ∣ t ∧ t ≤ 2 ^ 63 ∧ top ≤ t ∧ ∀ r ∈ regions, r.kind = .available → regionEnd r ≤ t by
    obtain ⟨h1, h2, -, h4⟩ := h regions 0 (dvd_zero _) (by positivity)
    exact ⟨h1, h2, h4⟩
  intro regions
  induction regions with
  | nil => exact fun top hd hle => ⟨hd, hle, le_rfl, by simp⟩
  | cons r regions ih =>
    intro top hd hle
    set top' := if r.kind ≠ .available then top
      else if regionEnd r > top then regionEnd r else top with htop
    have hnew : pageSize ∣ top' ∧ top' ≤ 2 ^ 63 ∧ top ≤ top' ∧
        (r.kind = .available → regionEnd r ≤ top') := by
      rw [htop]
      split
      · next hk => exact ⟨hd, hle, le_rfl, fun h => absurd h hk⟩
      · split
        · exact ⟨dvd_regionEnd r, regionEnd_le r, by omega, fun _ => le_rfl⟩
        · exact ⟨hd, hle, le_rfl, fun _ => by omega⟩
    obtain ⟨h1, h2, h3, h4⟩ := ih top' hnew.1 hnew.2.1
    refine ⟨h1, h2, hnew.2.2.1.trans h3, fun r' hr' hk => ?_⟩
    rcases List.mem_cons.mp hr' with rfl | hr'
    · exact (hnew.2.2.2 hk).trans h3
    · exact h4 r' hr' hk

/-- A bit for every page below `top` fits in `bitmapBytes top`. -/
theorem bitmapBytes_words {top a : Nat} (hd : pageSize ∣ top) (hle : top ≤ 2 ^ 63) (ha : a < top) :
    8 * (a / pageSize / 64) + 8 ≤ bitmapBytes top := by
  have hlt : a / pageSize < top / pageSize := by
    rw [Nat.div_lt_iff_lt_mul pageSize_pos, Nat.div_mul_cancel hd]
    exact ha
  have hp : pageSize = 4096 := rfl
  have hup : (top / pageSize + 63) / 64 * 8 ≤ bitmapBytes top := by
    refine le_alignUp pageSize_pos ?_
    simp only [usizeLimit, hp]
    omega
  omega

/-- The lists before any page was released. -/
abbrev noBlocks : Nat → List Nat := fun _ => []

theorem freeSet_noBlocks : freeSet noBlocks = ∅ := by
  ext p
  simp [mem_freeSet]

/-- An empty representation only needs a sound configuration and a clear bitmap. -/
theorem rep_noBlocks (hl : ∀ o < maxOrder, s.freeLists o = none) (hc : s.ConfigOk)
    (hb : ∀ a < s.coverEnd, s.headBit a = false) : s.Rep noBlocks where
  head o ho := hl o ho
  chain _ _ := trivial
  order _ _ _ ha := by simp at ha
  nodup _ _ := List.nodup_nil
  good _ _ _ ha := by simp at ha
  disj _ _ _ _ _ ha := by simp at ha
  bits a ha _ := by simp [hb a ha]
  config := hc

/-- What the bitmap set-up leaves alone. -/
structure SetupFrame (s s' : Buddy) : Prop where
  freeLists : s'.freeLists = s.freeLists
  freePages : s'.freePages = s.freePages
  physEnd : s'.physEnd = s.physEnd
  reserved : s'.reserved = s.reserved

/-- The search for a place ends, with the bitmap placed or without one. -/
theorem placeBitmap_rep {top : Nat} (hr : s.Rep noBlocks) (hd : pageSize ∣ top)
    (hle : top ≤ 2 ^ 63) (regions : List MemoryRegion) :
    ∃ s', s.placeBitmap top (bitmapBytes top) regions = some s' ∧ s'.Rep noBlocks ∧
      SetupFrame s s' ∧ (s' = s ∨ s'.coverEnd = top) := by
  induction regions with
  | nil => exact ⟨s, rfl, hr, by constructor <;> rfl, .inl rfl⟩
  | cons r regions ih =>
    rw [placeBitmap]
    by_cases hk : r.kind ≠ .available
    · rw [if_pos hk]
      exact ih
    rw [if_neg hk]
    obtain ⟨cand, hcand⟩ : ∃ c, bumpLoop (bitmapBytes top) s.reserved (s.reserved.length + 1)
        (regionStart r) = some c := bumpLoop_some _ (Nat.lt_succ_of_le List.countP_le_length)
    rw [hcand]
    simp only [Option.bind_eq_bind, Option.bind_some]
    by_cases hfit : cand + bitmapBytes top > regionEnd r
    · rw [if_pos hfit]
      exact ih
    rw [if_neg hfit]
    refine ⟨_, rfl, rep_noBlocks hr.head ⟨rfl, ?_, ?_, hr.config.ram⟩ ?_,
      by constructor <;> rfl, .inr rfl⟩
    · intro a ha
      have hw := bitmapBytes_words hd hle ha
      simp only [headWord]
      omega
    · intro x hx
      rcases List.mem_cons.mp hx with rfl | hx
      · exact Nat.le_add_right _ _
      · exact hr.config.ranges x (.tail _ hx)
    · -- The word is inside the range that was just zeroed.
      intro a ha
      have hw := bitmapBytes_words hd hle ha
      have hin : cand ≤ cand + 8 * (a / pageSize / 64) ∧
          cand + 8 * (a / pageSize / 64) < cand + bitmapBytes top :=
        ⟨Nat.le_add_right _ _, by omega⟩
      exact (congrArg (Nat.testBit · (a / pageSize % 64)) (if_pos hin)).trans
        (Nat.zero_testBit _)

/-- **Boot.** From an empty allocator, `init_from_map` frees exactly the clear
pages of the memory map. -/
theorem initFromMap_pool (hr : s.Rep noBlocks) (h0 : s.freePages = 0)
    (hcov : s.coverEnd = 0) {regions : List MemoryRegion} (hd : RegionsDisjoint regions) :
    ∃ s' L, s.initFromMap regions = some s' ∧ s'.Pool L ∧ s'.reserved = s.reserved ∧
      (s'.coverEnd = 0 ∨ s'.coverEnd = bitmapTop regions) ∧
      ∀ p, p ∈ freeSet L ↔ (∃ r ∈ regions, r.HasPage p) ∧ s'.pageClear p := by
  obtain ⟨htd, htle, -⟩ := bitmapTop_spec regions
  -- the bitmap comes first, while there are no blocks that it could lie on
  have hsetup : ∃ s₁, s.setupFreeHeadBitmap regions = some s₁ ∧ s₁.Rep noBlocks ∧
      SetupFrame s s₁ ∧ (s₁ = s ∨ s₁.coverEnd = bitmapTop regions) := by
    rw [setupFreeHeadBitmap]
    by_cases hb : bitmapBytes (bitmapTop regions) = 0
    · simp only [if_pos hb]
      exact ⟨s, rfl, hr, by constructor <;> rfl, .inl rfl⟩
    · simp only [if_neg hb]
      exact placeBitmap_rep hr htd htle regions
  obtain ⟨s₁, he₁, hr₁, hf₁, hc₁⟩ := hsetup
  have hp₁ : s₁.Pool noBlocks :=
    ⟨hr₁, by rw [hf₁.freePages, h0, freeSet_noBlocks]; rfl, fun _ _ _ ha => by simp at ha⟩
  obtain ⟨s₂, L, he₂, hp₂, hf₂, hm₂⟩ := initRegions_pool regions hp₁ hd
    (fun r _ p hp => by rw [freeSet_noBlocks] at hp; simp at hp)
  refine ⟨{ s₂ with totalPages := s₂.freePages }, L, ?_, ?_, ?_, ?_, fun p => ?_⟩
  · rw [initFromMap, he₁]
    simp only [Option.bind_eq_bind, Option.bind_some, he₂]
    rfl
  · exact hp₂.raisePhysEnd s₂.freePages le_rfl hp₂.rep.config.ram
  · exact hf₂.reserved.trans hf₁.reserved
  · rw [hf₂.coverEnd]
    exact hc₁.imp_left fun h => by rw [h, hcov]
  · rw [hm₂, freeSet_noBlocks, ← hf₂.pageClear]
    simp only [Finset.notMem_empty, false_or]
    rfl

/-! ### Reserved ranges -/

/-- The slot `reserve_range` writes. -/
def slotOf (r : PhysRange) : Nat × Nat := (alignDown r.start pageSize, alignUp r.stop pageSize)

theorem range_fits (r : PhysRange) : r.stop + (pageSize - 1) < usizeLimit := by
  have h := r.fits
  have hp : pageSize = 4096 := rfl
  simp only [usizeLimit]
  omega

theorem slotOf_lt (h : r.start < r.stop) : (slotOf r).1 < (slotOf r).2 :=
  (alignDown_le _ _).trans_lt (h.trans_le (le_alignUp pageSize_pos (range_fits r)))

/-- A page touches a recorded slot iff it touches the range itself. -/
theorem overlapsRange_slotOf (h : r.start < r.stop) (p : Nat) :
    overlapsRange (p * pageSize) pageSize (slotOf r) = true ↔
      p * pageSize < r.stop ∧ r.start < (p + 1) * pageSize := by
  have h1 := alignUp_le_iff pageSize_pos (range_fits r) (dvd_mul_left pageSize p)
  have h2 := le_alignDown_iff (v := r.start) pageSize_pos (dvd_mul_left pageSize (p + 1))
  have hne := (slotOf_lt h).ne
  simp only [overlapsRange, Bool.and_eq_true, bne_iff_ne, decide_eq_true_eq]
  simp only [slotOf] at hne ⊢
  rw [← Nat.succ_mul, ← not_le, ← not_le, h1, h2, not_le, not_le]
  exact ⟨fun hq => ⟨hq.1.2, hq.2⟩, fun hq => ⟨⟨hne, hq.1⟩, hq.2⟩⟩

theorem reserveSlot_first {r : Nat × Nat} {n : Nat} (l : List (Nat × Nat))
    (hl : ∀ x ∈ l, x.1 ≠ x.2) : reserveSlot r (l ++ List.replicate (n + 1) (0, 0)) =
      l ++ [r] ++ List.replicate n (0, 0) := by
  induction l with
  | nil => simp [reserveSlot, List.replicate_succ]
  | cons x xs ih =>
    rw [List.cons_append, reserveSlot, if_neg (hl x (.head _)), ih fun y hy => hl y (.tail _ hy)]
    rfl

/-- The nonempty ranges, as the slots hold them. -/
def slots (ranges : List PhysRange) : List (Nat × Nat) :=
  (ranges.filter fun r => decide (r.start < r.stop)).map slotOf

theorem mem_slots {ranges : List PhysRange} {x : Nat × Nat} :
    x ∈ slots ranges ↔ ∃ r ∈ ranges, r.start < r.stop ∧ slotOf r = x := by
  simp [slots, and_assoc]

theorem reserveRange_reserved {ranges : List PhysRange}
    (h : s.reserved = slots ranges ++ List.replicate (maxReserved - (slots ranges).length) (0, 0))
    (hlen : ranges.length < maxReserved) : (s.reserveRange r).reserved = slots (ranges ++ [r]) ++
      List.replicate (maxReserved - (slots (ranges ++ [r])).length) (0, 0) := by
  have hle : (slots ranges).length ≤ ranges.length := by
    rw [slots, List.length_map]
    exact List.length_filter_le _ _
  rw [reserveRange]
  -- an empty range takes no slot
  by_cases hr : r.start < r.stop
  · have hs : slots (ranges ++ [r]) = slots ranges ++ [slotOf r] := by
      simp [slots, List.filter_append, hr]
    have hne : ∀ x ∈ slots ranges, x.1 ≠ x.2 := fun x hx => by
      obtain ⟨r', -, hr', rfl⟩ := mem_slots.mp hx
      exact (slotOf_lt hr').ne
    obtain ⟨n, hn⟩ : ∃ n, maxReserved - (slots ranges).length = n + 1 :=
      ⟨maxReserved - (slots ranges).length - 1, by omega⟩
    rw [if_neg (by omega), hs]
    simp only [h, hn]
    rw [reserveSlot_first _ hne, List.length_append, List.length_singleton]
    congr 2
    omega
  · have hs : slots (ranges ++ [r]) = slots ranges := by
      simp [slots, List.filter_append, hr]
    rw [if_pos (by omega), hs, h]

/-- Up to `MAX_RESERVED` calls record every nonempty range. -/
theorem reserveRanges_reserved (mem : Nat → Nat) (ranges : List PhysRange)
    (hlen : ranges.length ≤ maxReserved) : (ranges.foldl reserveRange (fresh mem)).reserved =
      slots ranges ++ List.replicate (maxReserved - (slots ranges).length) (0, 0) := by
  induction ranges using List.reverseRecOn with
  | nil => simp [slots, fresh]
  | append_singleton ranges r ih =>
    rw [List.length_append] at hlen
    rw [List.foldl_append]
    exact reserveRange_reserved (ih (by omega)) hlen

/-- `reserve_range` touches the slots only. -/
theorem reserveRanges_fresh (mem : Nat → Nat) (ranges : List PhysRange) :
    ∃ slots', ranges.foldl reserveRange (fresh mem) = { fresh mem with reserved := slots' } := by
  induction ranges using List.reverseRecOn with
  | nil => exact ⟨_, rfl⟩
  | append_singleton ranges r ih =>
    obtain ⟨slots', hs⟩ := ih
    rw [List.foldl_append, hs]
    simp only [List.foldl_cons, reserveRange]
    split <;> exact ⟨_, rfl⟩

end Buddy

end Leandros.Mm
