import Leandros.Mm.PageCache.Shrink

/-!
# Leandros.Mm.PageCache.Reclaim

**Eviction**: `reclaim_pages`, `emergency_reclaim` and `purge`. All three only
**shed** pages: an entry is unchanged, or it was clean with no reference outside
the index and its frame is gone. The ledger holds through every batch.

`reclaim_pages` runs a clock over the files in batches: `scanFiles` picks the victims of one batch
under the cache's lock, and their frames are freed after it (`afterBatch`). What makes this safe is
that a victim has a count of one, which the ledger splits into the one entry of the index and
nothing else (`Ledger.evictable`). The emergency pass skips the files whose lock is taken, and
`purge` drops the holes, which have no frame. No size is learnt on the way (`Evicts`).
-/

namespace Leandros.Mm.PageCache

open Frames (lose_apply)
open Cache

/-- A view after eviction, with `held` references outside the index. -/
def Shed (held : Nat → Nat) (v v' : Option View) : Prop :=
  v' = v ∨ ((v' = none ∨ v' = some .hole) ∧
    (v = some .hole ∨ ∃ f, v = some (.cached f false) ∧ held f = 0))

variable {held : Nat → Nat}

theorem Shed.trans {v₁ v₂ v₃ : Option View} (h : Shed held v₁ v₂)
    (h' : Shed held v₂ v₃) : Shed held v₁ v₃ := by
  rcases h with rfl | ⟨hgone, hwas⟩
  · exact h'
  · rcases h' with rfl | ⟨hgone', -⟩
    · exact .inr ⟨hgone, hwas⟩
    · exact .inr ⟨hgone', hwas⟩

variable {v v' : Option View}

/-- Eviction never makes a cached page, and never changes one it keeps. -/
theorem Shed.cached (h : Shed held v v') {f : Nat}
    {d : Bool} (hv : v' = some (.cached f d)) : v = some (.cached f d) := by
  rcases h with rfl | ⟨hgone | hgone, -⟩
  · exact hv
  · cases hgone.symm.trans hv
  · cases hgone.symm.trans hv

/-- Eviction leaves fills alone. -/
theorem Shed.filling (h : Shed held v v') {t : Nat}
    {b : Bool} : v' = some (.filling t b) ↔ v = some (.filling t b) := by
  rcases h with rfl | ⟨hgone | hgone, hwas | ⟨f, hwas, -⟩⟩
  · rfl
  all_goals simp [hgone, hwas]

/-- A page with a reference outside the index, or a dirty one, stays. -/
theorem Shed.keeps (h : Shed held v v') {f : Nat}
    {d : Bool} (hv : v = some (.cached f d)) (hkeep : 0 < held f ∨ d = true) : v' = v := by
  rcases h with hs | ⟨-, hwas | ⟨g, hwas, h0⟩⟩
  · exact hs
  · cases hv.symm.trans hwas
  · cases hv.symm.trans hwas
    rcases hkeep with hpos | hd
    · omega
    · contradiction

namespace Cache

/-- The frame that leaves with a victim. -/
theorem evict_gone (c : Cache) (v : Nat × Nat) (f : Nat) :
    (c.evict v).2.count f = View.holds f (c.view v.1 v.2) := by
  rw [evict]
  cases hf : c.files.get? v.1 with
  | none =>
    rw [view_of_none hf]
    rfl
  | some fe =>
    dsimp only
    rw [apply_ite Prod.snd, ite_self, view, page?_of_file hf]
    cases hg : fe.pages.get? v.2 with
    | none => rfl
    | some p =>
      dsimp only
      rw [Option.map_some]
      by_cases hz : p.phys = 0
      · rw [if_neg (not_not.mpr hz), Page.view, if_pos hz]
        cases p.state <;> rfl
      · rw [if_pos hz, Page.view_of_phys hz, List.count_singleton]
        simp [View.holds]

theorem evict_owns (c : Cache) (v : Nat × Nat) (f : Nat) :
    (c.evict v).1.owns f + (c.evict v).2.count f = c.owns f := by
  have hchange := owns_change v.1 v.2 (fun k pg hne =>
    (evict_view c v k pg).trans (if_neg fun he => hne (Prod.ext he.1 he.2))) f
  have hnone : View.holds f ((c.evict v).1.view v.1 v.2) = 0 := by
    rw [evict_view, if_pos ⟨rfl, rfl⟩]
    rfl
  have hgone := evict_gone c v f
  omega

theorem evictAll_owns (f : Nat) (vs : List (Nat × Nat)) : ∀ c : Cache,
    (c.evictAll vs).1.owns f + (c.evictAll vs).2.count f = c.owns f := by
  induction vs with
  | nil => exact fun c => rfl
  | cons v vs ih =>
    intro c
    have h1 := evict_owns c v f
    have h2 := ih (c.evict v).1
    rw [evictAll]
    dsimp only
    rw [List.count_append]
    omega

/-- Every evicted frame was a victim's. -/
theorem mem_evictAll {f : Nat} (vs : List (Nat × Nat)) : ∀ {c : Cache},
    f ∈ (c.evictAll vs).2 → ∃ v ∈ vs, ∃ d, c.view v.1 v.2 = some (.cached f d) := by
  induction vs with
  | nil => exact fun h => absurd h List.not_mem_nil
  | cons v vs ih =>
    intro c h
    rcases List.mem_append.mp h with h | h
    · have hpos := List.count_pos_iff.mpr h
      rw [evict_gone] at hpos
      have hle := holds_le_one f (c.view v.1 v.2)
      exact ⟨v, .head _, holds_eq_one.mp (by omega)⟩
    · obtain ⟨u, hu, d, hd⟩ := ih h
      refine ⟨u, List.mem_cons_of_mem _ hu, d, ?_⟩
      rw [evict_view] at hd
      split at hd
      · contradiction
      · exact hd

end Cache

namespace World

variable {w : World} {held : Nat → Nat}

/-- One batch of `reclaim_pages`, its frames back with the allocator. -/
def afterBatch (w : World) (need : Nat) : World :=
  let b := w.cache.reclaimBatch w.frames need
  { w with cache := b.1, frames := w.frames.freeAll b.2.1 }

/-- An evictable frame has no owner but its entry. -/
theorem Ledger.evictable (h : w.Ledger held) {k pg f : Nat} {d : Bool}
    (hv : w.cache.view k pg = some (.cached f d)) (hget : w.frames.get f ≤ 1) :
    w.cache.owns f = 1 ∧ held f = 0 := by
  have hpos := owns_pos hv
  have := h.get_eq hv
  omega

/-- A batch frees the frames of its victims, and nobody else has them. -/
theorem afterBatch_ledger (h : w.Ledger held) (need : Nat) : (w.afterBatch need).Ledger held := by
  -- the scan only picks its victims; the pages go afterwards
  have hs := scanFiles_spec w.frames need w.cache.clockOrder
    ⟨w.cache, [], 0⟩ w.cache.hand (fun v hv => absurd hv List.not_mem_nil)
  rw [afterBatch, reclaimBatch]
  set r := scanFiles w.frames need ⟨w.cache, [], 0⟩ w.cache.hand w.cache.clockOrder
  set c : Cache := { r.1.cache with hand := r.2 }
  have hview : ∀ k pg, c.view k pg = w.cache.view k pg := hs.1.view
  have hown : ∀ f, c.owns f = w.cache.owns f := owns_congr hview
  refine Frames.Tracks.freeAll _ (Frames.Tracks.congr h fun f => ?_) fun f hf => ?_
  · have := evictAll_owns f r.1.victims c
    have := hown f
    dsimp only
    omega
  obtain ⟨v, hv, d, hd⟩ := mem_evictAll _ hf
  have hd' := (hview _ _).symm.trans hd
  -- a victim had no other reference, so its frame is free when the page has gone
  have hone : w.cache.owns f = 1 ∧ held f = 0 := by
    rcases hs.2 v hv with he | ⟨g, hg, hget⟩
    · exact absurd (he.symm.trans hd) (by simp)
    · have hgf := hg.symm.trans hd
      simp only [Option.some.injEq, View.cached.injEq] at hgf
      exact h.evictable hd' (hgf.1 ▸ hget)
  have := evictAll_owns f r.1.victims c
  have := hown f
  dsimp only
  omega

theorem afterBatch_view (h : w.Ledger held) (need k pg : Nat) :
    Shed held (w.cache.view k pg) ((w.afterBatch need).cache.view k pg) := by
  rcases reclaimBatch_view w.cache w.frames need k pg with hs | ⟨hs, he⟩
  · exact .inl hs
  refine .inr ⟨.inl hs, ?_⟩
  rcases he with he | ⟨f, hf, hget⟩
  · exact .inl he
  · exact .inr ⟨f, hf, (h.evictable hf hget).2⟩

/-- What eviction keeps: the ledger, the bytes, and every page it does not shed. -/
def Sheds (held : Nat → Nat) (w w' : World) : Prop :=
  w'.Ledger held ∧ w'.mem = w.mem ∧ ∀ k pg, Shed held (w.cache.view k pg) (w'.cache.view k pg)

/-- What a run of evictions does: it sheds pages and learns no size. -/
structure Evicts (held : Nat → Nat) (w w' : World) : Prop where
  sheds : Sheds held w w'
  sizes : SizesKept w.cache w'.cache

theorem Evicts.trans {w₁ w₂ w₃ : World} (h : Evicts held w₁ w₂) (h' : Evicts held w₂ w₃) :
    Evicts held w₁ w₃ :=
  ⟨⟨h'.sheds.1, h'.sheds.2.1.trans h.sheds.2.1,
    fun k pg => (h.sheds.2.2 k pg).trans (h'.sheds.2.2 k pg)⟩, h.sizes.trans h'.sizes⟩

variable (h : w.Ledger held)
include h

theorem Evicts.refl : Evicts held w w :=
  ⟨⟨h, rfl, fun _ _ => .inl rfl⟩, .refl _⟩

/-! ### `reclaim_pages` -/

theorem afterBatch_evicts (need : Nat) : Evicts held w (w.afterBatch need) := by
  have hs := (scanFiles_spec w.frames need w.cache.clockOrder ⟨w.cache, [], 0⟩ w.cache.hand
    fun v hv => absurd hv List.not_mem_nil).1.sizes
  exact ⟨⟨afterBatch_ledger h need, rfl, afterBatch_view h need⟩,
    hs.trans ((sizesKept_files rfl).trans (sizesKept_evictAll _ _))⟩

omit h in
theorem reclaimLoop_evicts (want : Nat) : ∀ (fuel : Nat) {w : World} (freed budget : Nat),
    w.Ledger held → Evicts held w (reclaimLoop want fuel (w, freed) budget).1 := by
  intro fuel
  induction fuel with
  | zero => exact fun _ _ h => .refl h
  | succ fuel ih =>
    intro w freed budget h
    rw [reclaimLoop]
    split
    · have hb := afterBatch_evicts h (min (want - freed) batch)
      dsimp only
      split
      · exact hb
      · exact hb.trans (ih _ _ hb.sheds.1)
    · exact .refl h

/-- **`reclaim_pages`** only sheds pages. -/
theorem reclaimPages_evicts (want : Nat) :
    Evicts held w (w.reclaimPages want).1 :=
  reclaimLoop_evicts want _ _ _ h

/-! ### `emergency_reclaim` and `purge` -/

/-- The emergency pass over one file, which skips what is in use. -/
theorem emergencyVisit_evicts (busy : Nat → Bool) (n : Nat) (spareRef : Bool)
    (k pg : Nat) : Evicts held w (emergencyVisit busy (w, n) spareRef k pg).1 := by
  rw [emergencyVisit]
  cases hf : w.cache.files.get? k with
  | none => exact .refl h
  | some fe =>
    cases hg : fe.pages.get? pg with
    | none => simpa [hg] using Evicts.refl h
    | some p =>
      simp only [hg]
      by_cases hskip : (!p.published || p.flags.dirty) = true
      · rw [if_pos hskip]
        exact .refl h
      rw [if_neg hskip]
      by_cases hspare : (spareRef && p.flags.ref) = true
      · rw [if_pos hspare]
        exact .refl h
      rw [if_neg hspare]
      by_cases hbusy : (busy p.phys || w.frames.get p.phys != 1) = true
      · rw [if_pos hbusy]
        exact .refl h
      rw [if_neg hbusy]
      simp only [Bool.or_eq_true, Bool.not_eq_true', not_or, Bool.not_eq_false,
        Bool.not_eq_true] at hskip
      simp only [Bool.or_eq_true, bne_iff_ne] at hbusy
      -- The page is clean and its entry is its only owner.
      have hv : w.cache.view k pg = some (.cached p.phys false) := by
        rw [view_of_page hf hg, Page.view_cached.mpr ⟨hskip.1, rfl, hskip.2⟩]
      obtain ⟨hone, hheld⟩ := h.evictable hv (by omega)
      have hup : p.state = .uptodate := by
        have := hskip.1
        simp only [Page.published, Bool.and_eq_true, beq_iff_eq] at this
        exact this.1
      have hview : ∀ k' pg', (w.cache.setFile k { fe with
          pages := fe.pages.insert pg p.emptied }).view k' pg' =
          if k' = k ∧ pg' = pg then some .hole else w.cache.view k' pg' := by
        have hempty : p.emptied.view = .hole := by simp [Page.emptied, Page.view, hup]
        rw [← hempty]
        exact view_insert hf rfl
      refine ⟨⟨?_, rfl, fun k' pg' => ?_⟩, sizesKept_setFile hf rfl rfl⟩
      · refine (Frames.Tracks.free h (by omega)).congr fun f => ?_
        have hchange := owns_change k pg (fun k' pg' hne =>
          (hview k' pg').trans (if_neg fun hx => hne (Prod.ext hx.1 hx.2))) f
        rw [hview, if_pos ⟨rfl, rfl⟩, hv] at hchange
        show (w.cache.setFile k _).owns f + held f = _
        rw [lose_apply]
        simp only [View.holds] at hchange
        split
        · next hfp =>
          rw [if_pos hfp.symm] at hchange
          omega
        · next hfp =>
          rw [if_neg (Ne.symm hfp)] at hchange
          omega
      · refine (hview k' pg').symm ▸ ?_
        split
        · next hk => exact .inr ⟨.inr rfl, .inr ⟨p.phys, by rw [hk.1, hk.2, hv], hheld⟩⟩
        · exact .inl rfl

omit h in
theorem emergencyLoop_evicts (busy : Nat → Bool) (want : Nat) (order : List (Bool × (Nat × Nat))) :
    ∀ {w : World} (n scanned : Nat), w.Ledger held →
      Evicts held w (emergencyLoop busy want (w, n) scanned order).1 := by
  induction order with
  | nil => exact fun _ _ h => .refl h
  | cons e order ih =>
    intro w n scanned h
    rw [emergencyLoop]
    split
    · exact .refl h
    · have hv := emergencyVisit_evicts h busy n e.1 e.2.1 e.2.2
      exact hv.trans (ih _ _ hv.sheds.1)

/-- **`emergency_reclaim`** only sheds pages. -/
theorem emergencyReclaim_evicts (busy : Nat → Bool) (want : Nat) :
    Evicts held w (w.emergencyReclaim busy want).1 := by
  rw [emergencyReclaim]
  split
  · exact .refl h
  · have hl := fun order => emergencyLoop_evicts busy want order 0 0 (w := { w with cache := { w.cache with
      emergencyHand := (w.cache.emergencyHand + 1) % 2 ^ 32 } }) h
    exact ⟨(hl _).sheds, (hl _).sizes⟩

/-- **`purge`** drops the emptied entries. -/
theorem purge_evicts : Evicts held w w.purge := by
  rw [purge]
  split
  · exact .refl h
  set c : Cache := { w.cache with
    holes := 0
    files := w.cache.files.mapVals fun _ fe =>
      { fe with pages := fe.pages.retain fun _ p => !(p.state == .uptodate && p.phys == 0) } }
  -- holes go, and they own no frame
  have hview : ∀ k pg, c.view k pg =
      if w.cache.view k pg = some .hole then none else w.cache.view k pg := by
    intro k pg
    rw [view, view, page?, page?]
    rw [OrdMap.get?_mapVals]
    cases w.cache.files.get? k with
    | none => rfl
    | some fe =>
      rw [Option.map_some, Option.bind_some, Option.bind_some, OrdMap.get?_retain]
      cases fe.pages.get? pg with
      | none => rfl
      | some p =>
        obtain ⟨phys, token, state, flags, hempty⟩ := p
        cases state with
        | filling => rfl
        | uptodate => by_cases h0 : phys = 0 <;> simp [Option.filter, Page.view, h0]
  refine ⟨⟨h.setCache fun f k pg => ?_, rfl, fun k pg => ?_⟩, fun k size hsz => ?_⟩
  · rw [hview]
    split
    · next hhole => rw [hhole]; rfl
    · rfl
  · rw [hview]
    split
    · next hhole => exact .inr ⟨.inl rfl, .inl hhole⟩
    · exact .inl rfl
  · rw [fileSize] at hsz ⊢
    rw [OrdMap.get?_mapVals] at hsz
    cases hf : w.cache.files.get? k with
    | none =>
      rw [hf] at hsz
      contradiction
    | some =>
      rw [hf] at hsz
      exact hsz

end World

end Leandros.Mm.PageCache
