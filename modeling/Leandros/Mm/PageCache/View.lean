import Leandros.Mm.PageCache.Model

/-!
# Leandros.Mm.PageCache.View

**What each page-cache step does to the index, page by page.** A page's **view**
forgets the hints (referenced, executable, mapped) and the counters: it is a
fill in flight, a cached frame, or a hole. Most steps leave all views alone;
the others change the views of the pages they name.

Both invariants of the cache, that it agrees with the files (`Coherence`) and that no store is lost
(`WriteBack`), are about views. A step of the model is therefore opened once, here or in `Steps` and
`Shrink`, and each invariant reads its case off the same lemma. `SizesKept` is the one thing
besides the views that a step may change and that matters: the size the cache knows of a file.
-/

namespace Leandros.Mm.PageCache

open OrdMap

/-- A page without its hints. -/
inductive View
  | filling (token : Nat) (stale : Bool)
  | cached (phys : Nat) (dirty : Bool)
  | hole
  deriving Repr, DecidableEq

def Page.view (p : Page) : View :=
  match p.state with
  | .filling => .filling p.token p.flags.stale
  | .uptodate => if p.phys = 0 then .hole else .cached p.phys p.flags.dirty

theorem Page.view_cached {p : Page} {f : Nat} {d : Bool} :
    p.view = .cached f d ↔ p.published = true ∧ p.phys = f ∧ p.flags.dirty = d := by
  obtain ⟨phys, token, state, flags, hempty⟩ := p
  cases state with
  | filling => simp [Page.view, Page.published]
  | uptodate =>
    by_cases h : phys = 0
    · simp [Page.view, Page.published, h]
    · simp [Page.view, Page.published, h]

/-- An entry with a frame is published. -/
theorem Page.view_of_phys {p : Page} (h : p.phys ≠ 0) : p.view = .cached p.phys p.flags.dirty := by
  rw [Page.view]
  cases hs : p.state with
  | filling => exact absurd (p.empty hs) h
  | uptodate => exact if_neg h

theorem Page.view_filling {p : Page} {t : Nat} {b : Bool} :
    p.view = .filling t b ↔ p.state = .filling ∧ p.token = t ∧ p.flags.stale = b := by
  obtain ⟨phys, token, state, flags, hempty⟩ := p
  cases state with
  | filling => simp [Page.view]
  | uptodate => by_cases h : phys = 0 <;> simp [Page.view, h]

namespace Cache

/-- The view of page `pg` of file `key`. -/
def view (c : Cache) (key pg : Nat) : Option View := (c.page? key pg).map Page.view

theorem page?_setFile (c : Cache) (key : Nat) (fe : FileEnt) (k pg : Nat) :
    (c.setFile key fe).page? k pg = if k = key then fe.pages.get? pg else c.page? k pg := by
  simp only [page?, setFile, get?_insert]
  split <;> rfl

variable {c : Cache} {key : Nat} {fe : FileEnt} {pages : OrdMap Page} {p : Page} {d : Bool}

theorem view_of_none (h : c.files.get? key = none) (pg : Nat) : c.view key pg = none := by
  rw [view, page?, h]
  rfl

/-- Putting back a file whose pages all look the same changes no view. -/
theorem view_setFile (hp : ∀ pg, (fe.pages.get? pg).map Page.view = c.view key pg) (k pg : Nat) :
    (c.setFile key fe).view k pg = c.view k pg := by
  rw [view, page?_setFile]
  split
  · next hk => rw [hk, hp]
  · rfl

theorem get?_insert_same_view {pg : Nat}
    (h : pages.get? pg = some p) (p' : Page) (hv : p'.view = p.view) (j : Nat) :
    ((pages.insert pg p').get? j).map Page.view = (pages.get? j).map Page.view := by
  rw [get?_insert]
  split
  · next hj => rw [hj, h, Option.map_some, Option.map_some, hv]
  · rfl

section

variable (h : c.files.get? key = some fe)
include h

theorem page?_of_file
    (pg : Nat) : c.page? key pg = fe.pages.get? pg := by
  rw [page?, h]
  rfl

theorem view_of_file (pg : Nat) :
    c.view key pg = (fe.pages.get? pg).map Page.view := by
  rw [view, page?_of_file h]

theorem view_setFile_same {fe' : FileEnt}
    (hp : ∀ pg, (fe'.pages.get? pg).map Page.view = (fe.pages.get? pg).map Page.view) (k pg : Nat) :
    (c.setFile key fe').view k pg = c.view k pg :=
  view_setFile (fun pg => (hp pg).trans (view_of_file h pg).symm) k pg

/-- Putting back a file with another entry for one page. -/
theorem view_insert {fe' : FileEnt} {pg : Nat}
    (hp : fe'.pages = fe.pages.insert pg p) (k j : Nat) :
    (c.setFile key fe').view k j = if k = key ∧ j = pg then some p.view else c.view k j := by
  rw [view, page?_setFile]
  by_cases hk : k = key
  · rw [if_pos hk, hp, get?_insert]
    by_cases hj : j = pg
    · rw [if_pos hj, if_pos ⟨hk, hj⟩, Option.map_some]
    · rw [if_neg hj, if_neg fun hc => hj hc.2, hk, view_of_file h]
  · rw [if_neg hk, if_neg fun hc => hk hc.1]
    rfl

theorem view_of_page {pg : Nat} (hg : fe.pages.get? pg = some p) :
    c.view key pg = some p.view := by
  rw [view_of_file h, hg]
  rfl

end

theorem cached_ne_zero {pg f : Nat} (h : c.view key pg = some (.cached f d)) : f ≠ 0 := by
  obtain ⟨p, -, hp⟩ := Option.map_eq_some_iff.mp h
  obtain ⟨hpub, rfl, -⟩ := Page.view_cached.mp hp
  simp only [Page.published, Bool.and_eq_true, bne_iff_ne] at hpub
  exact hpub.2

/-! ### The sizes the cache knows

Apart from `set_size`, `note_size` and `truncate`, a step keeps them. -/

/-- Every size known in `c'` was known in `c`, which may have known more. -/
def SizesKept (c c' : Cache) : Prop :=
  ∀ k size, c'.fileSize k = some size → c.fileSize k = some size

theorem SizesKept.refl (c : Cache) : SizesKept c c := fun _ _ h => h

theorem SizesKept.trans {c₁ c₂ c₃ : Cache} (h : SizesKept c₁ c₂) (h' : SizesKept c₂ c₃) :
    SizesKept c₁ c₃ := fun k size hs => h k size (h' k size hs)

/-- Putting back a file with the same size. -/
theorem sizesKept_setFile {c : Cache} {key : Nat} {fe fe' : FileEnt}
    (h : c.files.get? key = some fe) (hs : fe'.size = fe.size)
    (hk : fe'.sizeKnown = fe.sizeKnown) : SizesKept c (c.setFile key fe') := by
  intro k size hsz
  rw [fileSize, setFile] at hsz
  rw [get?_insert] at hsz
  split at hsz
  · next hkey => rw [hkey, fileSize, h, Option.bind_some, ← hs, ← hk]; exact hsz
  · exact hsz

theorem sizesKept_files {c c' : Cache} (h : c'.files = c.files) : SizesKept c c' := by
  intro k size hsz
  rw [fileSize, h] at hsz
  exact hsz

/-! ### Sizes and users -/

theorem view_getD_new (c : Cache) (key pg : Nat) :
    (((c.files.get? key).getD .new).pages.get? pg).map Page.view = c.view key pg := by
  rw [view, page?]
  cases c.files.get? key <;> rfl

theorem view_setSize (c : Cache) (key size k pg : Nat) :
    (c.setSize key size).view k pg = c.view k pg := by
  rw [setSize]
  split
  · rfl
  · refine view_setFile (fun pg => ?_) k pg
    exact view_getD_new c key pg

theorem view_noteSize (c : Cache) (key size k pg : Nat) :
    (c.noteSize key size).view k pg = c.view k pg := by
  rw [noteSize]
  cases h : c.files.get? key with
  | none => rfl
  | some =>
    dsimp only
    split
    · exact view_setFile_same h (fun _ => by rfl) k pg
    · rfl

theorem view_keyGet (c : Cache) (key k pg : Nat) : (c.keyGet key).view k pg = c.view k pg := by
  rw [keyGet]
  split
  · rfl
  · refine view_setFile (fun pg => ?_) k pg
    exact view_getD_new c key pg

/-! ### Fills -/

/-- `begin_fill` puts a run of placeholders where nothing was cached. -/
theorem fillPages_spec (token last : Nat) (want : Nat) : ∀ (pages : OrdMap Page) (pg : Nat),
    let r := fillPages token last pages pg want
    (∀ j, r.1.get? j = if pg ≤ j ∧ j < pg + r.2 then some (.placeholder token)
      else pages.get? j) ∧
    (∀ j, pg ≤ j → j < pg + r.2 → absent pages j = true) ∧ r.2 ≤ want := by
  induction want with
  | zero => exact fun pages pg => ⟨fun j => by rw [fillPages, if_neg (by omega)],
      fun j h1 h2 => absurd h2 (by rw [fillPages]; omega), le_rfl⟩
  | succ want ih =>
    intro pages pg
    rw [fillPages]
    split
    · exact ⟨fun j => by rw [if_neg (by omega)], fun j h1 h2 => absurd h2 (by omega), Nat.zero_le _⟩
    split
    · next habs =>
      obtain ⟨h1, h2, h3⟩ := ih (pages.insert pg (.placeholder token)) (pg + 1)
      dsimp only
      refine ⟨fun j => ?_, fun j hj1 hj2 => ?_, by omega⟩
      · rw [h1, get?_insert]
        -- the first page of the run, the rest of it, or a page outside
        by_cases hj : j = pg
        · rw [if_neg (by omega), if_pos hj, if_pos (by omega)]
        by_cases hr : pg + 1 ≤ j ∧
            j < pg + 1 + (fillPages token last (pages.insert pg (.placeholder token))
              (pg + 1) want).2
        · rw [if_pos hr, if_pos (by omega)]
        · rw [if_neg hr, if_neg hj, if_neg (by omega)]
      · by_cases hj : j = pg
        · rw [hj]; exact habs
        · have := h2 j (by omega) (by omega)
          rwa [absent, get?_insert, if_neg hj] at this
    · exact ⟨fun j => by rw [if_neg (by omega)], fun j h1 h2 => absurd h2 (by omega), Nat.zero_le _⟩

/-- The effect of `begin_fill` on the index. -/
theorem beginFill_spec (c : Cache) (key pgoff want : Nat) :
    let r := c.beginFill key pgoff want
    r.2.nextToken = max ((c.nextToken + 1) % 2 ^ 32) 1 ∧ SizesKept c r.2 ∧
    match r.1 with
    | none => ∀ k pg, r.2.page? k pg = c.page? k pg
    | some (token, n) => token = c.nextToken ∧ 0 < n ∧
        (∀ k pg, r.2.page? k pg = if k = key ∧ pgoff ≤ pg ∧ pg < pgoff + n then
          some (.placeholder token) else c.page? k pg) ∧
        ∀ pg, pgoff ≤ pg → pg < pgoff + n → c.page? key pg = none ∨ c.view key pg = some .hole := by
  rw [beginFill]
  cases h : c.files.get? key with
  | none => exact ⟨rfl, sizesKept_files rfl, fun _ _ => rfl⟩
  | some fe =>
    dsimp only
    split
    · exact ⟨rfl, sizesKept_files rfl, fun _ _ => rfl⟩
    obtain ⟨h1, h2, -⟩ := fillPages_spec c.nextToken ((fe.size - 1) / pageSize) want fe.pages
      pgoff
    split
    · exact ⟨rfl, sizesKept_files rfl, fun _ _ => rfl⟩
    · next hn =>
      refine ⟨rfl, sizesKept_setFile h rfl rfl, rfl, Nat.pos_of_ne_zero hn, fun k pg => ?_,
        fun pg hp1 hp2 => ?_⟩
      · refine (page?_setFile _ key _ k pg).trans ?_
        by_cases hk : k = key
        · rw [if_pos hk, hk, page?_of_file h]
          rw [h1]
          by_cases hr : pgoff ≤ pg ∧ pg < pgoff +
              (fillPages c.nextToken ((fe.size - 1) / pageSize) fe.pages pgoff want).2
          · rw [if_pos hr, if_pos ⟨rfl, hr⟩]
          · rw [if_neg hr, if_neg fun hc => hr hc.2]
        · rw [if_neg hk, if_neg fun hc => hk hc.1]
          rfl
      · -- what counts as absent may be a hole
        have habs := h2 pg hp1 hp2
        rw [view_of_file h, page?_of_file h]
        rw [absent] at habs
        cases hg : fe.pages.get? pg with
        | none => exact .inl rfl
        | some =>
          rw [hg] at habs
          simp only [Bool.and_eq_true, beq_iff_eq] at habs
          refine .inr ?_
          rw [Option.map_some, Page.view, habs.1]
          simp [habs.2]

/-- The placeholders of fill `token` among the pages `pg .. pg + n` go. -/
theorem abortPages_spec (token n : Nat) : ∀ (pages : OrdMap Page) (pg j : Nat),
    (abortPages token pages pg n).1.get? j =
      if (pg ≤ j ∧ j < pg + n) ∧ ((pages.get? j).map (·.fillingFor token)).getD false = true
      then none else pages.get? j := by
  induction n with
  | zero => exact fun pages pg j => by rw [abortPages, if_neg (by omega)]
  | succ n ih =>
    intro pages pg j
    rw [abortPages]
    by_cases hours : ((pages.get? pg).map (·.fillingFor token)).getD false = true
    · rw [if_pos hours, ih, get?_erase]
      by_cases hj : j = pg
      · rw [if_neg (by omega), if_pos hj, if_pos ⟨by omega, hj ▸ hours⟩]
      · rw [if_neg hj]
        refine if_congr (and_congr_left fun _ => ?_) rfl rfl
        omega
    · rw [if_neg hours, ih]
      by_cases hj : j = pg
      · rw [if_neg (by omega), if_neg fun hc => hours (hj ▸ hc.2)]
      · refine if_congr (and_congr_left fun _ => ?_) rfl rfl
        omega

theorem abortFill_spec (c : Cache) (key token pgoff n k pg : Nat) :
    (c.abortFill key token pgoff n).page? k pg = if (k = key ∧ pgoff ≤ pg ∧ pg < pgoff + n) ∧
        ((c.page? k pg).map (·.fillingFor token)).getD false = true
      then none else c.page? k pg := by
  rw [abortFill]
  cases h : c.files.get? key with
  | none =>
    rw [if_neg]
    rintro ⟨⟨rfl, -⟩, hc⟩
    rw [page?, h] at hc
    contradiction
  | some =>
    refine (page?_setFile c key _ k pg).trans ?_
    by_cases hk : k = key
    · rw [if_pos hk, hk, page?_of_file h]
      rw [abortPages_spec]
      exact if_congr (and_congr_left fun _ => (and_iff_right rfl).symm) rfl rfl
    · rw [if_neg hk, if_neg fun hc => hk hc.1.1]

/-- What `end_fill` makes of one page of its run. -/
def endPage (pages : OrdMap Page) (token valid i pg phys : Nat) : Option Page :=
  match fillEnd pages token valid i pg with
  | .notOurs => pages.get? pg
  | .discard => none
  | .publish => (pages.get? pg).map fun p => p.publish phys

theorem step_pages (token valid : Nat) (s : FillLoop) (i pg phys j : Nat) :
    (s.step token valid i pg phys).pages.get? j =
      if j = pg then endPage s.pages token valid i pg phys else s.pages.get? j := by
  rw [FillLoop.step, endPage]
  cases fillEnd s.pages token valid i pg with
  | notOurs =>
    dsimp only
    split
    · next hj => rw [hj]
    · rfl
  | discard => exact get?_erase _ _ _
  | publish => exact get?_modify _ _ _ _

/-- The run of `end_fill`, page by page: page `pg + m` gets the `m`-th frame. -/
theorem endFillLoop_pages (token valid : Nat) (frames : List Nat) : ∀ (s : FillLoop) (i pg j : Nat),
      (endFillLoop token valid s i pg frames).pages.get? j = if pg ≤ j ∧ j < pg + frames.length then
          endPage s.pages token valid (i + (j - pg)) j (frames.getD (j - pg) 0)
        else s.pages.get? j := by
  induction frames with
  | nil => exact fun s i pg j => by rw [endFillLoop, if_neg (by simp)]
  | cons phys frames ih =>
    intro s i pg j
    rw [endFillLoop, ih]
    -- the first frame of the loop, one of the others, or a page outside
    by_cases hj : j = pg
    · subst hj
      rw [step_pages]
      simp
    have hsame : (s.step token valid i pg phys).pages.get? j = s.pages.get? j := by
      rw [step_pages, if_neg hj]
    by_cases hr : pg + 1 ≤ j ∧ j < pg + 1 + frames.length
    · have hm : j - pg = (j - (pg + 1)) + 1 := by omega
      rw [if_pos hr, if_pos (by simp; omega), hm, List.getD_cons_succ, endPage, endPage,
        fillEnd, fillEnd, hsame]
      have hi : i + 1 + (j - (pg + 1)) = i + (j - (pg + 1) + 1) := by omega
      rw [hi]
    · rw [if_neg hr, if_neg (by simp; omega), hsame]

/-! ### Dirty pages and doomed fills -/

theorem setDirty_view {f : Nat} (h : p.view = .cached f d) (b : Bool) :
    (p.setDirty b).view = .cached f b := by
  rw [Page.view_cached] at h ⊢
  exact ⟨h.1, h.2.1, rfl⟩

theorem setStale_view (h : p.state = .filling) : p.setStale.view = .filling p.token true := by
  rw [Page.view_filling]
  exact ⟨h, rfl, rfl⟩

/-- `mark_dirty` succeeds exactly on the cached frame, which is dirty after it. -/
theorem markDirty_spec (c : Cache) (key pgoff phys : Nat) (hphys : phys ≠ 0) :
    c.markDirty key pgoff phys = (false, c) ∨
      ((c.markDirty key pgoff phys).1 = true ∧ SizesKept c (c.markDirty key pgoff phys).2 ∧
        (∃ d, c.view key pgoff = some (.cached phys d)) ∧
        ∀ k pg, (c.markDirty key pgoff phys).2.view k pg =
          if k = key ∧ pg = pgoff then some (.cached phys true) else c.view k pg) := by
  rw [markDirty]
  cases h : c.files.get? key with
  | none => exact .inl rfl
  | some fe =>
    dsimp only
    cases hg : fe.pages.get? pgoff with
    | none => exact .inl rfl
    | some p =>
      dsimp only
      by_cases hne : p.state ≠ .uptodate ∨ p.phys ≠ phys
      · exact .inl (if_pos hne)
      rw [if_neg hne]
      push Not at hne
      have hv : p.view = .cached phys p.flags.dirty := by
        rw [← hne.2] at hphys ⊢
        exact Page.view_of_phys hphys
      have hview : c.view key pgoff = some (.cached phys p.flags.dirty) := by
        rw [view_of_page h hg, hv]
      refine .inr ?_
      -- a page that is dirty already stays as it is
      by_cases hd : p.flags.dirty = true
      · rw [if_pos hd]
        refine ⟨rfl, .refl c, ⟨_, hview⟩, fun k pg => ?_⟩
        split
        · next hk => rw [hk.1, hk.2, hview, hd]
        · rfl
      · rw [if_neg hd]
        refine ⟨rfl, sizesKept_setFile h rfl rfl, ⟨_, hview⟩, fun k pg => ?_⟩
        rw [← setDirty_view hv]
        exact view_insert h rfl k pg

theorem noteGone_files (c : Cache) (fe : FileEnt) (p : Page) :
    (c.noteGone fe p).1.files = c.files ∧ (c.noteGone fe p).2.pages = fe.pages := by
  rw [noteGone]
  split
  · refine ⟨rfl, ?_⟩
    split <;> rfl
  · split <;> exact ⟨rfl, rfl⟩

/-! ### The clock -/

/-- The clock changes hints only. -/
theorem clockPage_view (fr : Frames) (orphan : Bool) (p : Page) :
    (clockPage fr orphan p).1.view = p.view := by
  obtain ⟨phys, token, state, flags, hempty⟩ := p
  rw [clockPage]
  split
  · rfl
  split
  · rfl
  split
  · rfl
  split
  · rfl
  · dsimp only
    split <;> rfl

/-- The clock picks holes, and clean frames nobody else refers to. -/
theorem clockPage_victim {fr : Frames} {orphan : Bool} (h : (clockPage fr orphan p).2 = true) :
    p.view = .hole ∨ ∃ f, p.view = .cached f false ∧ fr.get f ≤ 1 := by
  rw [clockPage] at h
  split at h
  · simp at h
  rename_i hs
  rw [not_not] at hs
  split at h
  · next h0 =>
    left
    rw [Page.view, hs]
    simp [h0]
  · next h0 =>
    split at h
    · simp at h
    · next hd =>
      split at h
      · simp at h
      · next hget =>
        refine .inr ⟨p.phys, ?_, by omega⟩
        rw [Page.view_of_phys h0, Bool.eq_false_of_not_eq_true hd]

/-- A page `reclaim_pages` may take: a hole, or a clean frame of the cache's own. -/
def Evictable (fr : Frames) (v : Option View) : Prop :=
  v = some .hole ∨ ∃ f, v = some (.cached f false) ∧ fr.get f ≤ 1

/-- The scan changes hints only: no view, and no size. -/
structure Unmoved (c c' : Cache) : Prop where
  view : ∀ k pg, c'.view k pg = c.view k pg
  sizes : SizesKept c c'

theorem Unmoved.refl (c : Cache) : Unmoved c c := ⟨fun _ _ => rfl, .refl c⟩

theorem Unmoved.trans {c₁ c₂ c₃ : Cache} (h : Unmoved c₁ c₂) (h' : Unmoved c₂ c₃) : Unmoved c₁ c₃ :=
  ⟨fun k pg => (h'.view k pg).trans (h.view k pg), h.sizes.trans h'.sizes⟩

theorem visit_unmoved (fr : Frames) (s : Scan) (k pg : Nat) :
    Unmoved s.cache (s.visit fr k pg).cache := by
  rw [Scan.visit]
  cases h : s.cache.files.get? k with
  | none => exact .refl _
  | some fe =>
    dsimp only
    cases hg : fe.pages.get? pg with
    | none => exact .refl _
    | some p =>
      exact ⟨view_setFile_same h
        (fun j => get?_insert_same_view hg _ (clockPage_view fr fe.orphan p) j),
        sizesKept_setFile h rfl rfl⟩

theorem visit_victims {fr : Frames} {s : Scan} (k pg : Nat)
    (h : ∀ v ∈ s.victims, Evictable fr (s.cache.view v.1 v.2)) :
    ∀ v ∈ (s.visit fr k pg).victims, Evictable fr ((s.visit fr k pg).cache.view v.1 v.2) := by
  intro v hv
  rw [(visit_unmoved fr s k pg).view]
  rw [Scan.visit] at hv
  cases hf : s.cache.files.get? k with
  | none => rw [hf] at hv; exact h v hv
  | some fe =>
    rw [hf] at hv
    dsimp only at hv
    cases hg : fe.pages.get? pg with
    | none => rw [hg] at hv; exact h v hv
    | some =>
      rw [hg] at hv
      dsimp only at hv
      split at hv
      · next hvict =>
        -- a victim of this visit, or one from before
        rcases List.mem_append.mp hv with hv | hv
        · exact h v hv
        rw [List.mem_singleton.mp hv]
        rw [view_of_page hf hg]
        exact (clockPage_victim hvict).imp (congrArg some) fun ⟨f, h1, h2⟩ =>
          ⟨f, congrArg some h1, h2⟩
      · exact h v hv

theorem scanPages_spec (fr : Frames) (need k : Nat) (pgs : List Nat) : ∀ {s : Scan},
    (∀ v ∈ s.victims, Evictable fr (s.cache.view v.1 v.2)) →
    let r := (scanPages fr need k s pgs).1
    Unmoved s.cache r.cache ∧ ∀ v ∈ r.victims, Evictable fr (r.cache.view v.1 v.2) := by
  induction pgs with
  | nil => exact fun h => ⟨.refl _, h⟩
  | cons pg pgs ih =>
    intro s h
    rw [scanPages]
    split
    · exact ⟨.refl _, h⟩
    · obtain ⟨h1, h2⟩ := ih (visit_victims k pg h)
      exact ⟨(visit_unmoved fr s k pg).trans h1, h2⟩

theorem scanFiles_spec (fr : Frames) (need : Nat) (files : List (Nat × Nat)) :
    ∀ (s : Scan) (hand : Nat × Nat), (∀ v ∈ s.victims, Evictable fr (s.cache.view v.1 v.2)) →
    let r := (scanFiles fr need s hand files).1
    Unmoved s.cache r.cache ∧ ∀ v ∈ r.victims, Evictable fr (r.cache.view v.1 v.2) := by
  induction files with
  | nil => exact fun _ _ h => ⟨.refl _, h⟩
  | cons e files ih =>
    intro s hand h
    obtain ⟨k, hp⟩ := e
    rw [scanFiles]
    have hs := scanPages_spec fr need k
      (((s.cache.files.get? k).map fun fe => fe.pages.keysFrom hp).getD []) h
    generalize scanPages fr need k s
      (((s.cache.files.get? k).map fun fe => fe.pages.keysFrom hp).getD []) = r at hs
    obtain ⟨r, stop⟩ := r
    cases stop with
    | some => exact hs
    | none =>
      dsimp only
      split
      · exact hs
      · obtain ⟨h1, h2⟩ := ih _ (nextHand k) hs.2
        exact ⟨hs.1.trans h1, h2⟩

/-- Evicting takes one page out. -/
theorem evict_view (c : Cache) (v : Nat × Nat) (k pg : Nat) :
    (c.evict v).1.view k pg = if k = v.1 ∧ pg = v.2 then none else c.view k pg := by
  rw [evict]
  cases h : c.files.get? v.1 with
  | none =>
    dsimp only
    split
    · next hk => rw [hk.1, view_of_none h]
    · rfl
  | some fe =>
    dsimp only
    -- Removing a file whose last page went looks the same as putting it back.
    split
    · next hempty =>
      simp only [Bool.and_eq_true, isEmpty, List.isEmpty_iff] at hempty
      rw [view, page?]
      rw [get?_erase]
      by_cases hk : k = v.1
      · rw [if_pos hk]
        by_cases hp : pg = v.2
        · rw [if_pos ⟨hk, hp⟩]; rfl
        have hnone : fe.pages.get? pg = none := by
          have he := get?_erase fe.pages v.2 pg
          rw [if_neg hp, get?, hempty.1] at he
          exact he.symm
        rw [if_neg fun hc => hp hc.2, hk, view_of_file h, hnone]
        rfl
      · rw [if_neg hk, if_neg fun hc => hk hc.1]
        rfl
    · rw [view, page?_setFile]
      by_cases hk : k = v.1
      · rw [if_pos hk, get?_erase]
        by_cases hp : pg = v.2
        · rw [if_pos hp, if_pos ⟨hk, hp⟩]; rfl
        · rw [if_neg hp, if_neg fun hc => hp hc.2, hk, view_of_file h]
      · rw [if_neg hk, if_neg fun hc => hk hc.1]
        rfl

theorem evictAll_view (vs : List (Nat × Nat)) : ∀ (c : Cache) (k pg : Nat),
    (c.evictAll vs).1.view k pg = if (k, pg) ∈ vs then none else c.view k pg := by
  induction vs with
  | nil => exact fun c k pg => by rw [evictAll, if_neg (List.not_mem_nil)]
  | cons v vs ih =>
    intro c k pg
    rw [evictAll]
    rw [ih, evict_view]
    by_cases hv : (k, pg) ∈ vs
    · rw [if_pos hv, if_pos (.tail _ hv)]
    · rw [if_neg hv]
      refine if_congr ?_ rfl rfl
      rw [List.mem_cons, or_iff_left hv, Prod.ext_iff]

theorem sizesKept_evict (c : Cache) (v : Nat × Nat) : SizesKept c (c.evict v).1 := by
  rw [evict]
  cases hf : c.files.get? v.1 with
  | none => exact SizesKept.refl c
  | some =>
    dsimp only
    split
    · intro k size hsz
      rw [fileSize] at hsz
      rw [get?_erase] at hsz
      split at hsz
      · contradiction
      · exact hsz
    · exact sizesKept_setFile hf rfl rfl

theorem sizesKept_evictAll (vs : List (Nat × Nat)) : ∀ c : Cache,
    SizesKept c (c.evictAll vs).1 := by
  induction vs with
  | nil => exact SizesKept.refl
  | cons v vs ih => exact fun c => (sizesKept_evict c v).trans (ih _)

/-- **A batch** takes evictable pages out and changes no other view. -/
theorem reclaimBatch_view (c : Cache) (fr : Frames) (need k pg : Nat) :
    (c.reclaimBatch fr need).1.view k pg = c.view k pg ∨
      ((c.reclaimBatch fr need).1.view k pg = none ∧ Evictable fr (c.view k pg)) := by
  have hs := scanFiles_spec fr need c.clockOrder ⟨c, [], 0⟩ c.hand
    (fun v hv => absurd hv List.not_mem_nil)
  rw [reclaimBatch]
  rw [evictAll_view]
  by_cases hv : (k, pg) ∈ (scanFiles fr need ⟨c, [], 0⟩ c.hand c.clockOrder).1.victims
  · rw [if_pos hv]
    have hev := hs.2 _ hv
    rw [hs.1.view] at hev
    exact .inr ⟨rfl, hev⟩
  · rw [if_neg hv]
    exact .inl (hs.1.view k pg)

end Cache

end Leandros.Mm.PageCache
