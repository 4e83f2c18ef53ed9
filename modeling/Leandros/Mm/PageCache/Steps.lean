import Leandros.Mm.PageCache.Owns

/-!
# Leandros.Mm.PageCache.Steps

**One lemma per page-cache step**: what it does to the views, and how it moves the
**ledger**. `World.Ledger w held` says that the reference counts are exactly the
owners of each frame: the entries of the index and the references `held f` that
the rest of the system has on `f` (mappings, pins, frames being filled).

A step that takes references moves `held` up by what it hands out, and one that gives them back
moves it down, so the caller's account is the only thing an invariant has to carry. The counts are
`u32`s: a step that takes references is described for a count with room for them (`Ledger.room`).
`writeback_done` cleans a page only under the condition `Cleans`; that it does not do so in other
cases is the other half of `writebackDone_view`.
-/

namespace Leandros.Mm.PageCache

open Frames (Tracks gain gain_apply lose_apply)
open OrdMap
open Cache
open List (mem_map not_mem_nil)

namespace World

/-- The counts are the index entries and the references held outside. -/
def Ledger (w : World) (held : Nat → Nat) : Prop :=
  w.frames.Tracks fun f => w.cache.owns f + held f

variable {w : World} {held : Nat → Nat}

theorem Ledger.congr {w' : World} {held' : Nat → Nat} (h : w.Ledger held)
    (hfr : w'.frames = w.frames) (hv : ∀ k pg, w'.cache.view k pg = w.cache.view k pg)
    (hh : ∀ f, held' f = held f) : w'.Ledger held' := by
  rw [Ledger, hfr]
  exact Tracks.congr h fun f => by rw [owns_congr hv, hh]

/-- A step that only edits the index, and keeps every frame where it is. -/
theorem Ledger.setCache (h : w.Ledger held) {c : Cache}
    (hv : ∀ f k pg, View.holds f (c.view k pg) = View.holds f (w.cache.view k pg)) :
    { w with cache := c }.Ledger held :=
  Tracks.congr h fun f => by rw [owns_of_holds hv]

/-- The room that the counts show, in terms of owners. -/
theorem Ledger.room {n : Nat} (h : w.Ledger held) (hr : w.frames.hasRoom n = true) :
    ∀ f, w.cache.owns f + held f + n < 2 ^ 32 :=
  Tracks.room h hr

/-- The count of a cached frame is its number of owners. -/
theorem Ledger.get_eq (h : w.Ledger held) {k pg f : Nat} {d : Bool}
    (hv : w.cache.view k pg = some (.cached f d)) : w.frames.get f = w.cache.owns f + held f := by
  have := owns_pos hv
  exact Tracks.get_eq h (by omega)

/-! ### Edits of the index -/

section

variable (h : w.Ledger held)
include h

theorem Ledger.setSize (key size : Nat) :
    { w with cache := w.cache.setSize key size }.Ledger held :=
  h.congr rfl (view_setSize _ _ _) fun _ => rfl

theorem Ledger.noteSize (key size : Nat) :
    { w with cache := w.cache.noteSize key size }.Ledger held :=
  h.congr rfl (view_noteSize _ _ _) fun _ => rfl

theorem Ledger.beginFill (key pgoff want : Nat) :
    { w with cache := (w.cache.beginFill key pgoff want).2 }.Ledger held := by
  refine h.setCache fun f k pg => ?_
  have hs := (beginFill_spec w.cache key pgoff want).2.2
  rcases hr : (w.cache.beginFill key pgoff want).1 with _ | ⟨token, n⟩
  · rw [hr] at hs
    rw [view, hs, ← view]
  rw [hr] at hs
  obtain ⟨-, -, hp, habs⟩ := hs
  rw [view, hp]
  split
  · next hk =>
    have hz : View.holds f (w.cache.view k pg) = 0 := by
      rcases habs pg hk.2.1 hk.2.2 with ha | ha
      · rw [hk.1, view, ha]; rfl
      · rw [hk.1, ha]; rfl
    rw [hz]
    rfl
  · rw [← view]

theorem Ledger.abortFill (key token pgoff n : Nat) :
    { w with cache := w.cache.abortFill key token pgoff n }.Ledger held := by
  refine h.setCache fun f k pg => ?_
  rw [view, abortFill_spec]
  split
  · next hk =>
    rw [view]
    cases hp : w.cache.page? k pg with
    | none => rfl
    | some p =>
      have hfill := hk.2
      rw [hp] at hfill
      simp only [Option.map_some, Option.getD_some, Page.fillingFor, Bool.and_eq_true,
        beq_iff_eq] at hfill
      have hv : p.view = .filling p.token p.flags.stale :=
        Page.view_filling.mpr ⟨hfill.1, rfl, rfl⟩
      rw [Option.map_some, hv]
      rfl
  · rw [← view]

theorem Ledger.markDirty (key pgoff : Nat) {phys : Nat} (hphys : phys ≠ 0) :
    { w with cache := (w.cache.markDirty key pgoff phys).2 }.Ledger held := by
  refine h.setCache fun f k pg => ?_
  rcases markDirty_spec w.cache key pgoff phys hphys with hs | ⟨-, -, ⟨d, hd⟩, hs⟩
  · rw [hs]
  rw [hs]
  split
  · next hk => rw [hk.1, hk.2, hd]; rfl
  · rfl

end

/-! ### References -/

theorem pinPages_spec (n : Nat) : ∀ (pages : OrdMap Page) (pg : Nat),
    (∀ j, ((pinPages pages pg n).1.get? j).map Page.view = (pages.get? j).map Page.view) ∧
      ∀ f ∈ (pinPages pages pg n).2, ∃ j d, (pages.get? j).map Page.view = some (.cached f d) := by
  induction n with
  | zero => exact fun pages pg => ⟨fun _ => rfl, fun f hf => absurd hf not_mem_nil⟩
  | succ n ih =>
    intro pages pg
    rw [pinPages]
    cases hg : pages.get? pg with
    | none => exact ⟨fun _ => rfl, fun f hf => absurd hf not_mem_nil⟩
    | some p =>
      dsimp only
      split
      · next hpub =>
        -- the run goes on while the pages are there, and each is marked as used
        have hsame := get?_insert_same_view hg (p.setRef true) rfl
        obtain ⟨h1, h2⟩ := ih (pages.insert pg (p.setRef true)) (pg + 1)
        refine ⟨fun j => (h1 j).trans (hsame j), fun f hf => ?_⟩
        rcases List.mem_cons.mp hf with rfl | hf
        · exact ⟨pg, p.flags.dirty, by
            rw [hg, Option.map_some, Page.view_cached.mpr ⟨hpub, rfl, rfl⟩]⟩
        · obtain ⟨j, d, hd⟩ := h2 f hf
          exact ⟨j, d, (hsame j).symm.trans hd⟩
      · exact ⟨fun _ => rfl, fun f hf => absurd hf not_mem_nil⟩

/-- **`pin_run`** changes no view and takes a reference on each frame it returns. -/
theorem pinRun_spec (h : w.Ledger held) (key pgoff n : Nat)
    (hroom : ∀ f, w.cache.owns f + held f + (w.pinRun key pgoff n).2.1.length < 2 ^ 32) :
    let r := w.pinRun key pgoff n
    (∀ k pg, r.2.2.cache.view k pg = w.cache.view k pg) ∧ r.2.2.mem = w.mem ∧
      (∀ f ∈ r.2.1, 0 < w.cache.owns f) ∧ r.2.2.Ledger fun f => held f + r.2.1.count f := by
  rw [pinRun] at hroom ⊢
  cases hf : w.cache.files.get? key with
  | none => exact ⟨fun _ _ => rfl, rfl, fun f hf => absurd hf not_mem_nil,
      h.congr rfl (fun _ _ => rfl) fun _ => by simp⟩
  | some fe =>
    rw [hf] at hroom
    dsimp only at hroom ⊢
    obtain ⟨h1, h2⟩ := pinPages_spec n fe.pages pgoff
    split at hroom
    · next hempty =>
      rw [if_pos hempty]
      exact ⟨fun _ _ => rfl, rfl, fun f hf => absurd hf not_mem_nil,
        h.congr rfl (fun _ _ => rfl) fun _ => by simp⟩
    next hempty =>
    rw [if_neg hempty]
    have hview : ∀ k pg, (w.cache.setFile key { fe with
        pages := (pinPages fe.pages pgoff n).1 }).view k pg = w.cache.view k pg :=
      view_setFile_same hf h1
    -- a pinned page is cached, so its frame has an owner to count from
    have hpos : ∀ f ∈ (pinPages fe.pages pgoff n).2, 0 < w.cache.owns f := by
      intro f hfm
      obtain ⟨j, d, hd⟩ := h2 f hfm
      have hv : w.cache.view key j = some (.cached f d) := by
        rw [view_of_file hf]
        exact hd
      exact owns_pos hv
    refine ⟨hview, rfl, hpos, ?_⟩
    refine (Tracks.incMany _ h (fun f hfm => Nat.add_pos_left (hpos f hfm) _) fun f =>
      (Nat.add_le_add_left List.count_le_length _).trans_lt (hroom f)).congr fun f => ?_
    dsimp only
    rw [owns_congr hview]
    omega

/-- **`unpin`** drops the references. -/
theorem Ledger.unpin {l : List Nat} (h : w.Ledger fun f => held f + l.count f) :
    (w.unpin l).Ledger held :=
  Tracks.unrefAll l (Tracks.congr h fun _ => Nat.add_assoc _ _ _)

/-- **`lookup`** changes no view and takes a reference on the cached frame. -/
theorem lookup_spec (h : w.Ledger held) (hroom : ∀ f, w.cache.owns f + held f + 1 < 2 ^ 32)
    (key pgoff : Nat) (exec : Bool) :
    w.lookup key pgoff exec = (none, w) ∨ ∃ f d w', w.lookup key pgoff exec = (some f, w') ∧
        w.cache.view key pgoff = some (.cached f d) ∧
        (∀ k pg, w'.cache.view k pg = w.cache.view k pg) ∧ w'.mem = w.mem ∧
        w'.Ledger (gain held f) ∧ SizesKept w.cache w'.cache := by
  rw [lookup]
  split
  · exact .inl rfl
  cases hf : w.cache.files.get? key with
  | none => exact .inl rfl
  | some fe =>
    dsimp only
    cases hg : fe.pages.get? pgoff with
    | none => exact .inl rfl
    | some p =>
      dsimp only
      by_cases hpub : p.published = true
      · have hv : p.view = .cached p.phys p.flags.dirty :=
          Page.view_cached.mpr ⟨hpub, rfl, rfl⟩
        have hview : w.cache.view key pgoff = some (.cached p.phys p.flags.dirty) := by
          rw [view_of_page hf hg, hv]
        -- the flags that a lookup sets are no part of the view
        have hedit : ∀ k j, (w.cache.setFile key
            { fe with pages := fe.pages.insert pgoff (p.setHanded exec) }).view k j =
              w.cache.view k j :=
          view_setFile_same hf (get?_insert_same_view hg (p.setHanded exec) rfl)
        rw [hpub]
        refine .inr ⟨p.phys, p.flags.dirty, _, rfl, hview, hedit, rfl, ?_,
          sizesKept_setFile hf rfl rfl⟩
        have hpos := owns_pos hview
        refine (Tracks.inc h (by omega) (hroom _)).congr fun f => ?_
        rw [gain_apply, gain_apply]
        have hown := owns_congr hedit f
        split
        · exact (congrArg (· + (held f + 1)) hown).trans (Nat.add_assoc _ _ _).symm
        · exact congrArg (· + held f) hown
      · left
        simp [hpub]

/-! ### Write-back -/

theorem pickDirty_spec {c : Cache} {fr : Frames} {lo hi max : Nat} {mapped : Bool}
    {out : List DirtyPage} {d : DirtyPage} (h : d ∈ c.pickDirty fr lo hi mapped max out) :
    c.view d.key d.pgoff = some (.cached d.phys true) := by
  rw [pickDirty] at h
  split at h
  · exact absurd h not_mem_nil
  obtain ⟨⟨key, fe⟩, he, hd⟩ := List.mem_flatMap.mp (List.mem_of_mem_take h)
  have hfile := mem_entries.mp (List.mem_of_mem_filter he)
  rw [dirtyOf] at hd
  split at hd
  · exact absurd hd not_mem_nil
  obtain ⟨⟨pg, p⟩, hp, hd⟩ := List.mem_filterMap.mp hd
  obtain ⟨hc, hd⟩ := Option.ite_none_right_eq_some.mp hd
  cases hd
  simp only [Bool.and_eq_true] at hc
  rw [view_of_page hfile (mem_entries.mp hp), Page.view_cached.mpr ⟨hc.1.1, rfl, hc.1.2⟩]

/-- **`take_dirty`** pins cached dirty pages. -/
theorem takeDirty_spec (h : w.Ledger held) (lo hi : Nat) (mapped : Bool) (max : Nat)
    (out : List DirtyPage)
    (hroom : ∀ f, w.cache.owns f + held f + (w.takeDirty lo hi mapped max out).1.length < 2 ^ 32) :
    ∃ picked w', w.takeDirty lo hi mapped max out = (out ++ picked, w') ∧
      (∀ d ∈ picked, w.cache.view d.key d.pgoff = some (.cached d.phys true)) ∧
      w'.cache = w.cache ∧ w'.mem = w.mem ∧
      w'.Ledger fun f => held f + (picked.map (·.phys)).count f := by
  refine ⟨_, _, rfl, fun d hd => pickDirty_spec hd, rfl, rfl, ?_⟩
  refine (Tracks.incMany _ h (fun f hf => ?_) fun f => ?_).congr fun f => (Nat.add_assoc _ _ _).symm
  · obtain ⟨d, hd, rfl⟩ := mem_map.mp hf
    have := owns_pos (pickDirty_spec hd)
    omega
  · have hlen := hroom f
    rw [takeDirty, List.length_append] at hlen
    refine (Nat.add_le_add_left (List.count_le_length.trans ?_) _).trans_lt hlen
    rw [List.length_map]
    exact Nat.le_add_left _ _

/-- When `writeback_done` marks its page clean. -/
def Cleans (w : World) (d : DirtyPage) (ok : Bool) : Prop :=
  ok = true ∧ w.cache.view d.key d.pgoff = some (.cached d.phys true) ∧ w.frames.get d.phys ≤ 2

/-- The cache `writeback_done` leaves. -/
theorem writebackDone_view (w : World) (d : DirtyPage) (ok : Bool) (hphys : d.phys ≠ 0) :
    (w.Cleans d ok ∧ SizesKept w.cache (w.writebackDone d ok).cache ∧
        ∀ k pg, (w.writebackDone d ok).cache.view k pg =
          if k = d.key ∧ pg = d.pgoff then some (.cached d.phys false) else w.cache.view k pg) ∨
      (¬w.Cleans d ok ∧ (w.writebackDone d ok).cache = w.cache) := by
  rw [writebackDone, Cleans]
  cases hf : w.cache.files.get? d.key with
  | none =>
    refine .inr ⟨fun hc => ?_, rfl⟩
    rw [view_of_none hf] at hc
    exact absurd hc.2.1 (by simp)
  | some fe =>
    dsimp only
    cases hg : fe.pages.get? d.pgoff with
    | none =>
      refine .inr ⟨fun hc => ?_, rfl⟩
      rw [view_of_file hf, hg] at hc
      exact absurd hc.2.1 (by simp)
    | some p =>
      dsimp only
      rw [view_of_page hf hg, Option.some.injEq]
      -- cleaned only if the write went well and the page is still this frame, dirty and not mapped
      by_cases hc : ok = true ∧ p.phys = d.phys ∧ p.flags.dirty = true ∧ w.frames.get d.phys ≤ 2
      · have hv : p.view = .cached d.phys true := by
          rw [← hc.2.1] at hphys ⊢
          rw [Page.view_of_phys hphys, hc.2.2.1]
        rw [if_pos hc]
        refine .inl ⟨⟨hc.1, hv, hc.2.2.2⟩, sizesKept_setFile hf rfl rfl, fun k pg => ?_⟩
        rw [← setDirty_view hv]
        exact view_insert hf rfl k pg
      · rw [if_neg hc]
        refine .inr ⟨fun hx => hc ?_, rfl⟩
        obtain ⟨-, h2, h3⟩ := Page.view_cached.mp hx.2.1
        exact ⟨hx.1, h2, h3, hx.2.2⟩

/-- **`writeback_done`** drops the pin and keeps every frame where it is. -/
theorem Ledger.writebackDone {d : DirtyPage} {ok : Bool} (h : w.Ledger (gain held d.phys))
    (hphys : d.phys ≠ 0) : (w.writebackDone d ok).Ledger held := by
  have hown : ∀ f, (w.writebackDone d ok).cache.owns f = w.cache.owns f := by
    refine fun f => owns_of_holds (fun f k pg => ?_) f
    rcases writebackDone_view w d ok hphys with ⟨hc, -, hv⟩ | ⟨-, hv⟩
    · rw [hv]
      split
      · next hk => rw [hk.1, hk.2, hc.2.1]; rfl
      · rfl
    · rw [hv]
  have hu := Tracks.unrefOrFree h (by rw [gain_apply, if_pos rfl]; omega)
  refine Tracks.congr hu fun f => ?_
  rw [hown, lose_apply, gain_apply]
  split <;> omega

/-! ### Write-through -/

theorem mem_pinnedIn {first last : Nat} {pages : OrdMap Page} {q : Pinned} :
    q ∈ pinnedIn first last pages ↔ ∃ p, pages.get? q.pgoff = some p ∧
      (first ≤ q.pgoff ∧ q.pgoff ≤ last ∧ p.state ≠ .filling ∧ p.phys ≠ 0) ∧
      q.phys = p.phys ∧ q.exec = p.flags.exec := by
  rw [pinnedIn, List.mem_filterMap]
  constructor
  · rintro ⟨⟨pg, p⟩, hp, hq⟩
    obtain ⟨hc, hq⟩ := Option.ite_none_right_eq_some.mp hq
    cases hq
    exact ⟨p, mem_entries.mp hp, hc, rfl, rfl⟩
  · rintro ⟨p, hp, hc, h1, h2⟩
    refine ⟨(q.pgoff, p), mem_entries.mpr hp, ?_⟩
    dsimp only
    rw [if_pos hc, ← h1, ← h2]

/-- A page is pinned once. -/
theorem nodup_pinnedIn (first last : Nat) (pages : OrdMap Page) :
    ((pinnedIn first last pages).map (·.pgoff)).Nodup := by
  have hsorted : ((pinnedIn first last pages).map (·.pgoff)).Pairwise (· < ·) := by
    rw [pinnedIn, List.map_filterMap]
    refine pages.sorted.filterMap _ fun a b hab i hi j hj => ?_
    obtain ⟨q, hq, rfl⟩ := Option.map_eq_some_iff.mp hi
    obtain ⟨q', hq', rfl⟩ := Option.map_eq_some_iff.mp hj
    obtain ⟨-, hq⟩ := Option.ite_none_right_eq_some.mp hq
    obtain ⟨-, hq'⟩ := Option.ite_none_right_eq_some.mp hq'
    cases hq
    cases hq'
    exact hab
  exact hsorted.imp Nat.ne_of_lt

/-- What `wt_pin` does: fills of the written pages are doomed, their cached
frames pinned. -/
theorem wtPin_spec (h : w.Ledger held) (hone : ∀ f, w.cache.owns f ≤ 1)
    (hroom : ∀ f, w.cache.owns f + held f + 1 < 2 ^ 32) (key pos len : Nat) :
    ∃ pins w', w.wtPin key pos len = (pins, w') ∧ w'.mem = w.mem ∧ (∀ k pg, w'.cache.view k pg =
        match w.cache.view k pg with
        | some (.filling t b) => some (.filling t (b ||
            decide (k = key ∧ len ≠ 0 ∧ pos / pageSize ≤ pg ∧ pg ≤ (pos + len - 1) / pageSize)))
        | v => v) ∧
      (∀ q, q ∈ pins → len ≠ 0 ∧ pos / pageSize ≤ q.pgoff ∧ q.pgoff ≤ (pos + len - 1) / pageSize ∧
        ∃ d, w.cache.view key q.pgoff = some (.cached q.phys d)) ∧
      (∀ pg f d, len ≠ 0 → pos / pageSize ≤ pg → pg ≤ (pos + len - 1) / pageSize →
        w.cache.view key pg = some (.cached f d) → ∃ q ∈ pins, q.pgoff = pg ∧ q.phys = f) ∧
      w'.Ledger fun f => held f + (pins.map (·.phys)).count f := by
  have hid : ∀ v : Option View, v = match v with
      | some (.filling t b) => some (.filling t (b || false))
      | v => v := by
    intro v
    rcases v with _ | v
    · rfl
    · cases v <;> simp
  rw [wtPin]
  by_cases hlen : len = 0
  · rw [if_pos hlen]
    refine ⟨[], w, rfl, rfl, fun k pg => ?_, fun q hq => absurd hq not_mem_nil,
      fun _ _ _ hne => absurd hlen hne, h.congr rfl (fun _ _ => rfl) fun _ => by simp⟩
    simpa [hlen] using hid (w.cache.view k pg)
  rw [if_neg hlen]
  cases hf : w.cache.files.get? key with
  | none =>
    refine ⟨[], w, rfl, rfl, fun k pg => ?_, fun q hq => absurd hq not_mem_nil,
      fun pg f d _ _ _ hv => ?_, h.congr rfl (fun _ _ => rfl) fun _ => by simp⟩
    · by_cases hk : k = key
      · rw [hk, view_of_none hf]
      · simpa [hk] using hid (w.cache.view k pg)
    · rw [view_of_none hf] at hv
      contradiction
  | some fe =>
    set first := pos / pageSize
    set last := (pos + len - 1) / pageSize
    have hpins : ∀ q ∈ pinnedIn first last fe.pages, len ≠ 0 ∧ first ≤ q.pgoff ∧
        q.pgoff ≤ last ∧ ∃ d, w.cache.view key q.pgoff = some (.cached q.phys d) := by
      intro q hq
      obtain ⟨p, hp, hc, h1, -⟩ := mem_pinnedIn.mp hq
      refine ⟨hlen, hc.1, hc.2.1, p.flags.dirty, ?_⟩
      rw [view_of_page hf hp, Page.view_of_phys hc.2.2.2, h1]
    have hview : ∀ k pg, (w.cache.setFile key { fe with
          pages := doomRange first last fe.pages }).view k pg =
        match w.cache.view k pg with
        | some (.filling t b) => some (.filling t (b ||
            decide (k = key ∧ len ≠ 0 ∧ first ≤ pg ∧ pg ≤ last)))
        | v => v := by
      intro k pg
      rw [view, page?_setFile]
      by_cases hk : k = key
      · rw [if_pos hk, doomRange, get?_mapVals, hk, view_of_file hf]
        cases hg : fe.pages.get? pg with
        | none => rfl
        | some p =>
          obtain ⟨phys, token, state, flags⟩ := p
          cases state with
          | filling =>
            by_cases hr : first ≤ pg ∧ pg ≤ last
            · simp [Page.view, Page.setStale, hr, hlen]
            · rw [not_and_or] at hr
              rcases hr with hr | hr <;> simp [Page.view, hr]
          | uptodate =>
            by_cases h0 : phys = 0 <;> simp [Page.view, h0]
      · rw [if_neg hk, ← view]
        simpa [hk] using hid (w.cache.view k pg)
    refine ⟨_, _, rfl, rfl, hview, hpins, ?_, ?_⟩
    · intro pg f d _ h1 h2 hv
      rw [view_of_file hf] at hv
      obtain ⟨p, hp, hpv⟩ := Option.map_eq_some_iff.mp hv
      obtain ⟨hpub, hphys, -⟩ := Page.view_cached.mp hpv
      simp only [Page.published, Bool.and_eq_true, beq_iff_eq, bne_iff_ne] at hpub
      refine ⟨⟨pg, p.phys, p.flags.exec⟩, mem_pinnedIn.mpr ⟨p, hp, ⟨h1, h2, ?_, hpub.2⟩, rfl, rfl⟩,
        rfl, hphys⟩
      rw [hpub.1]
      decide
    · have hpos : ∀ f ∈ (pinnedIn first last fe.pages).map (·.phys),
          0 < w.cache.owns f + held f := by
        intro f hfm
        obtain ⟨q, hq, rfl⟩ := mem_map.mp hfm
        obtain ⟨-, -, -, d, hd⟩ := hpins q hq
        have := owns_pos hd
        omega
      have hown : ∀ f, (w.cache.setFile key { fe with
          pages := doomRange first last fe.pages }).owns f = w.cache.owns f := by
        refine fun f => owns_of_holds (fun f k pg => ?_) f
        rw [hview]
        rcases w.cache.view k pg with _ | v
        · rfl
        · cases v <;> rfl
      -- Two pins of one frame would be two pages of the cache with that frame.
      have honce : ∀ f, ((pinnedIn first last fe.pages).map (·.phys)).count f ≤ 1 := by
        refine fun f => List.nodup_iff_count_le_one.mp (List.Nodup.map_on ?_
          (List.Nodup.of_map _ (nodup_pinnedIn first last fe.pages))) f
        intro q hq q' hq' hphys
        obtain ⟨-, -, -, d, hd⟩ := hpins q hq
        obtain ⟨-, -, -, d', hd'⟩ := hpins q' hq'
        rw [← hphys] at hd'
        exact List.inj_on_of_nodup_map (nodup_pinnedIn first last fe.pages) hq hq'
          (owns_unique (hone q.phys) hd hd').2.symm
      refine (Tracks.incMany _ h hpos fun f =>
        (Nat.add_le_add_left (honce f) _).trans_lt (hroom f)).congr fun f => ?_
      exact (congrArg (· + _) (hown f)).trans (Nat.add_assoc _ _ _).symm

end World

end Leandros.Mm.PageCache
