import Leandros.Mm.PageCache.Steps

/-!
# Leandros.Mm.PageCache.Shrink

**How pages enter and leave the index with their frames**: `drop_file` and `key_put`, `extend` and
`truncate`, and `end_fill`. Each is a lemma about the views and the ledger, as in `Steps`; eviction
is in `Reclaim`.

A page that is being filled cannot be taken out, as its frame belongs to the fill. `truncate` marks
it instead (`truncView`), and `end_fill` then frees what it read (`endView`). `extend` marks the
page that the old size ends in, or zeroes the part of it that the file did not have.

The loops of the source go over one page at a time. `truncate_step` and `step_owns` are about one
turn; the folds follow by induction, with each page met once.
-/

namespace Leandros.Mm.PageCache

open Frames (Tracks)
open OrdMap
open Cache
open Page (fillingFor holds holds_eq publish)
open Option (map_some)

namespace World

variable {w : World} {held : Nat → Nat}

/-! ### `drop_file` -/

/-- The frames a list of entries holds. -/
theorem sum_holds_eq_count (f : Nat) (l : List (Nat × Page)) (sel : Nat × Page → Bool) :
    (l.map fun e => if sel e then holds f e.2 else 0).sum =
      (l.filterMap fun e => if sel e && e.2.published then some e.2.phys else none).count f := by
  induction l with
  | nil => rfl
  | cons e l ih =>
    rw [List.map_cons, List.sum_cons, ih, List.filterMap_cons]
    by_cases hs : sel e = true
    · by_cases hp : e.2.published = true
      · simp only [hs, hp, Bool.and_self, if_true, holds_eq, true_and, List.count_cons, beq_iff_eq]
        omega
      · simp [hs, hp, holds_eq]
    · simp [hs]

/-- **`drop_file`** empties the file; every other view stays. -/
theorem dropFile_spec (h : w.Ledger held) {key : Nat} (hkey : key ≠ 0) :
    (∀ k pg, (w.dropFile key).cache.view k pg = if k = key then none else w.cache.view k pg) ∧
      (w.dropFile key).mem = w.mem ∧ (w.dropFile key).Ledger held := by
  rw [dropFile, if_neg hkey]
  cases hf : w.cache.files.get? key with
  | none =>
    refine ⟨fun k pg => ?_, rfl, h⟩
    by_cases hk : k = key
    · rw [if_pos hk, hk, view_of_none hf]
    · rw [if_neg hk]
  | some fe =>
    refine ⟨fun k pg => ?_, rfl, ?_⟩
    · rw [view, page?]
      rw [get?_erase]
      split <;> rfl
    refine Tracks.unrefAll _ (Tracks.congr h fun f => ?_)
    -- the file's share of the sum is what the loop gives back
    have herase := total_erase (fun _ fe => FileEnt.owns fe f) w.cache.files key
    have hcount := sum_holds_eq_count f fe.pages.entries fun _ => true
    simp only [Bool.true_and] at hcount
    have hfe : fe.owns f = _ := hcount
    rw [hf, weight_some] at herase
    show total _ (w.cache.files.erase key) + held f + _ = total _ _ + held f
    omega

theorem keyPut_spec (h : w.Ledger held) (readCache : Bool) (key : Nat) :
    (∀ k pg, (w.keyPut readCache key).cache.view k pg = w.cache.view k pg ∨
      (w.keyPut readCache key).cache.view k pg = none) ∧
      (w.keyPut readCache key).mem = w.mem ∧ (w.keyPut readCache key).Ledger held := by
  rw [keyPut]
  split
  · exact ⟨fun _ _ => .inl rfl, rfl, h⟩
  · next hkey =>
    cases hf : w.cache.files.get? key with
    | none => exact ⟨fun _ _ => .inl rfl, rfl, h⟩
    | some fe =>
      dsimp only
      -- the count of users is no part of the view
      have hview : ∀ k pg, (w.cache.setFile key { fe with users := fe.users - 1 }).view k pg =
          w.cache.view k pg := view_setFile_same hf fun _ => rfl
      have hl : { w with cache := w.cache.setFile key { fe with users := fe.users - 1 } }.Ledger
          held := h.congr rfl hview fun _ => rfl
      split
      · obtain ⟨h1, h2, h3⟩ := dropFile_spec hl hkey
        refine ⟨fun k pg => ?_, h2, h3⟩
        rw [h1]
        split
        · exact .inr rfl
        · exact .inl (hview k pg)
      · exact ⟨fun k pg => .inl (hview k pg), rfl, hl⟩

/-! ### `extend` and `truncate` -/

/-- What `extend` does: the page of byte `from'` is doomed if it is being
filled, and zeroed past `from'` if it is cached. -/
theorem extend_spec (h : w.Ledger held) (key from' upto : Nat) :
    (w.extend key from' upto).Ledger held ∧
    (∀ k pg, (w.extend key from' upto).cache.view k pg = w.cache.view k pg ∨
      ∃ t b, w.cache.view k pg = some (.filling t b) ∧
        (w.extend key from' upto).cache.view k pg = some (.filling t true)) ∧
    ((w.extend key from' upto).mem = w.mem ∨
      ∃ f d lo hi, w.cache.view key (from' / pageSize) = some (.cached f d) ∧
        from' % pageSize ≤ lo ∧ (w.extend key from' upto).mem = (w.zero f lo hi).mem) ∧
    (from' < upto → from' % pageSize ≠ 0 → ∀ t b,
      w.cache.view key (from' / pageSize) = some (.filling t b) →
        (w.extend key from' upto).cache.view key (from' / pageSize) = some (.filling t true)) := by
  rw [extend]
  -- nothing grows, or the old size ends on a page boundary, or the page is not there
  by_cases hup : upto ≤ from'
  · rw [if_pos hup]
    exact ⟨h, fun _ _ => .inl rfl, .inl rfl, fun hlt => absurd hlt (by omega)⟩
  rw [if_neg hup]
  by_cases hoff : from' % pageSize = 0
  · rw [if_pos hoff]
    exact ⟨h, fun _ _ => .inl rfl, .inl rfl, fun _ hne => absurd hoff hne⟩
  rw [if_neg hoff]
  cases hf : w.cache.files.get? key with
  | none =>
    refine ⟨h, fun _ _ => .inl rfl, .inl rfl, fun _ _ t b hv => ?_⟩
    rw [view_of_none hf] at hv
    contradiction
  | some fe =>
    dsimp only
    cases hg : fe.pages.get? (from' / pageSize) with
    | none =>
      refine ⟨h, fun _ _ => .inl rfl, .inl rfl, fun _ _ t b hv => ?_⟩
      rw [view_of_file hf, hg] at hv
      contradiction
    | some p =>
      dsimp only
      have hpage := view_of_page hf hg
      by_cases hfill : p.state = .filling
      · rw [if_pos hfill]
        have hv : p.view = .filling p.token p.flags.stale :=
          Page.view_filling.mpr ⟨hfill, rfl, rfl⟩
        -- a page that is being filled is marked, so that the fill throws its bytes away
        have hview : ∀ k pg, (w.cache.setFile key { fe with
            pages := fe.pages.insert (from' / pageSize) p.setStale }).view k pg =
            if k = key ∧ pg = from' / pageSize then some (.filling p.token true)
            else w.cache.view k pg := by
          rw [← setStale_view hfill]
          exact view_insert hf rfl
        refine ⟨?_, fun k pg => ?_, .inl rfl, fun _ _ t b ht => ?_⟩
        · refine h.setCache fun f k pg => ?_
          rw [hview]
          split
          · next hk => rw [hk.1, hk.2, hpage, hv]; rfl
          · rfl
        · rw [hview]
          split
          · next hk => exact .inr ⟨p.token, p.flags.stale, by rw [hk.1, hk.2, hpage, hv], rfl⟩
          · exact .inl rfl
        · rw [hview, if_pos ⟨rfl, rfl⟩]
          rw [hpage, hv] at ht
          simp only [Option.some.injEq, View.filling.injEq] at ht
          rw [ht.1]
      · rw [if_neg hfill]
        -- a page that is there gets zeroes past the old size, unless it is a hole
        have hno : ∀ t b, w.cache.view key (from' / pageSize) ≠ some (.filling t b) := by
          intro t b ht
          rw [hpage] at ht
          exact hfill (Page.view_filling.mp (Option.some.inj ht)).1
        by_cases hz : p.phys = 0 ∨ min (upto - from' / pageSize * pageSize) pageSize ≤
            from' % pageSize
        · rw [if_pos hz]
          exact ⟨h, fun _ _ => .inl rfl, .inl rfl, fun _ _ t b ht => absurd ht (hno t b)⟩
        rw [if_neg hz]
        have hv := Page.view_of_phys fun h0 => hz (.inl h0)
        exact ⟨h, fun _ _ => .inl rfl,
          .inr ⟨p.phys, p.flags.dirty, _, _, by rw [hpage, hv], le_rfl, rfl⟩,
          fun _ _ t b ht => absurd ht (hno t b)⟩

/-- What a truncation makes of a page past the new end. -/
def truncPage : Option Page → Option Page
  | some p => if p.state = .filling then some p.setStale else none
  | none => none

theorem truncPage_some {o : Option Page} {p : Page} (h : truncPage o = some p) :
    p.state = .filling := by
  rcases o with _ | q
  · contradiction
  · rw [truncPage] at h
    split at h
    · next hf => exact Option.some.inj h ▸ hf
    · contradiction

/-- A fill that the removal loop leaves was there before it. -/
theorem truncPage_filling {c : Prop} [Decidable c] {o o' : Option Page} {p : Page}
    (ho : o' = if c then truncPage o else o) (hg : o' = some p) (hp : p.state = .filling) :
    ∃ q, o = some q ∧ q.state = .filling ∧ q.token = p.token := by
  rw [ho] at hg
  split at hg
  · rcases o with _ | q
    · contradiction
    · rw [truncPage] at hg
      split at hg
      · next hf => exact ⟨q, rfl, hf, by rw [← Option.some.inj hg]; rfl⟩
      · contradiction
  · exact ⟨p, hg, hp, rfl⟩

/-- One page of the removal loop of `truncate`. -/
theorem truncate_step (r : Cache × FileEnt) (pg : Nat) :
    let r' : Cache × FileEnt := match r.2.pages.get? pg with
      | none => r
      | some p =>
        if p.state = .filling then (r.1, { r.2 with pages := r.2.pages.insert pg p.setStale })
        else r.1.noteGone { r.2 with pages := r.2.pages.erase pg } p
    r'.1.files = r.1.files ∧ ∀ j, r'.2.pages.get? j =
      if j = pg then truncPage (r.2.pages.get? pg) else r.2.pages.get? j := by
  cases hg : r.2.pages.get? pg with
  | none =>
    refine ⟨rfl, fun j => ?_⟩
    dsimp only
    split
    · next hj => rw [hj, hg]; rfl
    · rfl
  | some p =>
    dsimp only
    by_cases hfill : p.state = .filling
    · rw [if_pos hfill]
      refine ⟨rfl, fun j => ?_⟩
      rw [get?_insert, truncPage, if_pos hfill]
    · rw [if_neg hfill]
      obtain ⟨h1, h2⟩ := noteGone_files r.1 { r.2 with pages := r.2.pages.erase pg } p
      refine ⟨h1, fun j => ?_⟩
      rw [h2, get?_erase, truncPage, if_neg hfill]

theorem truncateFold_spec (l : List Nat) (hl : l.Nodup) : ∀ r : Cache × FileEnt,
    let r' := l.foldl (fun (r : Cache × FileEnt) pg =>
      match r.2.pages.get? pg with
      | none => r
      | some p =>
        if p.state = .filling then (r.1, { r.2 with pages := r.2.pages.insert pg p.setStale })
        else r.1.noteGone { r.2 with pages := r.2.pages.erase pg } p) r
    r'.1.files = r.1.files ∧ ∀ j, r'.2.pages.get? j =
      if j ∈ l then truncPage (r.2.pages.get? j) else r.2.pages.get? j := by
  induction l with
  | nil => exact fun r => ⟨rfl, fun j => by rw [if_neg List.not_mem_nil]; rfl⟩
  | cons pg l ih =>
    intro r
    obtain ⟨hpg, hl'⟩ := List.nodup_cons.mp hl
    obtain ⟨h1, h2⟩ := truncate_step r pg
    rw [List.foldl_cons]
    obtain ⟨h3, h4⟩ := ih hl' _
    refine ⟨h3.trans h1, fun j => ?_⟩
    -- the pages are distinct, so each is met once
    rw [h4, h2]
    by_cases hj : j = pg
    · rw [if_pos hj, if_neg (hj ▸ hpg), if_pos (hj ▸ .head _), hj]
    · rw [if_neg hj]
      refine if_congr ?_ rfl rfl
      rw [List.mem_cons, or_iff_right hj]

/-- The pages after the removal loop of `truncate`. -/
theorem truncatePages_spec (firstGone : Nat) (c : Cache) (fe : FileEnt) :
    (truncatePages firstGone (c, fe)).1.files = c.files ∧
      ∀ j, (truncatePages firstGone (c, fe)).2.pages.get? j =
        if firstGone ≤ j then truncPage (fe.pages.get? j) else fe.pages.get? j := by
  obtain ⟨h1, h2⟩ := truncateFold_spec (fe.pages.keysFrom firstGone)
    (nodup_keysFrom ..) (c, fe)
  refine ⟨h1, fun j => (h2 j).trans ?_⟩
  by_cases hj : firstGone ≤ j
  · rw [if_pos hj]
    by_cases hm : j ∈ fe.pages.keysFrom firstGone
    · rw [if_pos hm]
    · rw [if_neg hm]
      cases hg : fe.pages.get? j with
      | none => rfl
      | some p => exact absurd (mem_keysFrom.mpr ⟨hj, p, hg⟩) hm
  · rw [if_neg hj, if_neg fun hm => hj (mem_keysFrom.mp hm).1]

/-- A view after the file was truncated to `size`. -/
def truncView (size pg : Nat) : Option View → Option View
  | some (.filling t b) =>
    some (.filling t (b || decide (firstGone size ≤ pg) || decide (size / pageSize ≤ pg)))
  | some (.cached f d) =>
    if firstGone size ≤ pg then none else some (.cached f d)
  | some .hole => if firstGone size ≤ pg then none else some .hole
  | none => none

variable {v : Option View}

/-- A page still cached after a truncation was cached, and starts below the end. -/
theorem truncView_cached {size pg f : Nat} {d : Bool}
    (h : truncView size pg v = some (.cached f d)) :
    v = some (.cached f d) ∧ ¬firstGone size ≤ pg := by
  rcases v with _ | ⟨t, b⟩ | ⟨g, d'⟩ | _
  · cases h
  · cases h
  · rw [truncView] at h
    split at h
    · contradiction
    · next hlt => exact ⟨h, hlt⟩
  · rw [truncView] at h
    split at h <;> cases h

/-- A fill that a truncation does not doom is of a page wholly below the end. -/
theorem truncView_filling {size pg t : Nat} (h : truncView size pg v = some (.filling t false)) :
    v = some (.filling t false) ∧ ¬firstGone size ≤ pg ∧ pg < size / pageSize := by
  rcases v with _ | ⟨t', b⟩ | ⟨g, d⟩ | _
  · contradiction
  · simp only [truncView, Option.some.injEq, View.filling.injEq, Bool.or_eq_false_iff,
      decide_eq_false_iff_not] at h
    exact ⟨by rw [h.1, h.2.1.1], h.2.1.2, by omega⟩
  all_goals
    rw [truncView] at h
    split at h <;> cases h

/-- The page after that of `size` always goes. -/
theorem firstGone_le (size : Nat) : firstGone size ≤ size / pageSize + 1 := by
  have := Nat.mod_le (size + (pageSize - 1)) usizeLimit
  unfold firstGone wadd pageSize at *
  omega

/-- The page of `size` goes if the file ends with the page before. -/
theorem firstGone_le_of_aligned {size : Nat} (h : size % pageSize = 0) :
    firstGone size ≤ size / pageSize := by
  have := Nat.mod_le (size + (pageSize - 1)) usizeLimit
  unfold firstGone wadd pageSize at *
  omega

theorem map_view_truncPage {size pg : Nat} (h : firstGone size ≤ pg)
    (p : Option Page) : (truncPage p).map Page.view = truncView size pg (p.map Page.view) := by
  rcases p with _ | p
  · rfl
  rw [truncPage]
  by_cases hf : p.state = .filling
  · have hv : p.view = .filling p.token p.flags.stale := Page.view_filling.mpr ⟨hf, rfl, rfl⟩
    rw [if_pos hf, map_some, setStale_view hf, map_some, hv, truncView]
    simp [h]
  · rw [if_neg hf, Option.map_none, map_some]
    cases hv : p.view with
    | filling => exact absurd (Page.view_filling.mp hv).1 hf
    | cached | hole => rw [truncView, if_pos h]

theorem truncView_below {size pg : Nat} (h : ¬firstGone size ≤ pg)
    (hv : pg = size / pageSize → ∀ t b, v ≠ some (.filling t b)) : truncView size pg v = v := by
  rcases v with _ | ⟨t, b⟩ | ⟨f, d⟩ | _
  · rfl
  · have hne : ¬size / pageSize ≤ pg := by
      intro hle
      have := firstGone_le size
      exact hv (by omega) t b rfl
    rw [truncView, decide_eq_false h, decide_eq_false hne, Bool.or_false, Bool.or_false]
  · rw [truncView, if_neg h]
  · rw [truncView, if_neg h]

theorem holds_truncView (f size pg : Nat) (v : Option View) : View.holds f (truncView size pg v) =
      if firstGone size ≤ pg then 0 else View.holds f v := by
  rcases v with _ | ⟨t, b⟩ | ⟨g, d⟩ | _
  · exact (ite_self _).symm
  · exact (ite_self _).symm
  all_goals
    rw [truncView]
    split <;> rfl

/-- The entries a truncation removes are the ones whose frames it lets go. -/
theorem truncate_owns (size f : Nat) {fe fe' : FileEnt}
    (hv : ∀ j, (fe'.pages.get? j).map Page.view =
      truncView size j ((fe.pages.get? j).map Page.view)) :
    fe'.owns f + (fe.pages.entries.filterMap fun e =>
      if decide (firstGone size ≤ e.1) && e.2.published then some e.2.phys
      else none).count f = fe.owns f := by
  have hkeep : fe'.owns f =
      fe.pages.total fun j p => if decide (firstGone size ≤ j) then 0 else holds f p := by
    refine total_congr fun j => ?_
    rw [weight_holds, hv, holds_truncView]
    cases fe.pages.get? j with
    | none => exact ite_self _
    | some =>
      rw [weight_some]
      exact if_congr (by simp) rfl rfl
  have hcount := sum_holds_eq_count f fe.pages.entries fun e => decide (firstGone size ≤ e.1)
  rw [hkeep, ← hcount, total, FileEnt.owns, total, ← List.sum_map_add]
  refine congrArg List.sum (List.map_congr_left fun e _ => ?_)
  split <;> omega

/-- The end of `truncate`: the changed file goes back, the frames go. -/
theorem truncate_finish (h : w.Ledger held) {key : Nat} (size : Nat) {fe : FileEnt}
    {c : Cache} (fe' : FileEnt) (hf : w.cache.files.get? key = some fe) (hc : c.files = w.cache.files)
    (hv : ∀ j, (fe'.pages.get? j).map Page.view =
      truncView size j ((fe.pages.get? j).map Page.view)) (m : Nat → Nat → Nat) :
    let w' : World := ⟨c.setFile key fe', w.frames.unrefAll (fe.pages.entries.filterMap fun e =>
      if decide (firstGone size ≤ e.1) && e.2.published then some e.2.phys
      else none), m⟩
    w'.Ledger held ∧ ∀ k pg, w'.cache.view k pg =
      if k = key then truncView size pg (w.cache.view k pg) else w.cache.view k pg := by
  refine ⟨Tracks.unrefAll _ (Tracks.congr h fun f => ?_), fun k pg => ?_⟩
  · have hown := owns_setFile (by rw [hc]; exact hf) fe' f
    have hsame : c.owns f = w.cache.owns f := by rw [owns, owns, hc]
    have hpages := truncate_owns size f hv
    dsimp only
    omega
  · rw [view, page?_setFile]
    split
    · next hk => rw [hv, hk, view_of_file hf]
    · rw [page?, hc]
      rfl

/-- **`truncate`**: pages past the end go, fills past the end or of the last page
are doomed, and the cached last page is zero past the end. -/
theorem truncate_spec (h : w.Ledger held) (key size : Nat) : (w.truncate key size).Ledger held ∧
    (∀ k pg, (w.truncate key size).cache.view k pg =
      if k = key then truncView size pg (w.cache.view k pg) else w.cache.view k pg) ∧
    (((w.truncate key size).mem = w.mem ∧ (size % pageSize ≠ 0 → ∀ f d,
        truncView size (size / pageSize) (w.cache.view key (size / pageSize)) ≠
          some (.cached f d))) ∨
      ∃ f d, w.cache.view key (size / pageSize) = some (.cached f d) ∧
        (w.truncate key size).mem = (w.zero f (size % pageSize) pageSize).mem) := by
  cases hf : w.cache.files.get? key with
  | none =>
    have hnone : ∀ pg, w.cache.view key pg = none := fun pg => by
      rw [view_of_none hf]
    rw [truncate, hf]
    refine ⟨h, fun k pg => ?_, .inl ⟨rfl, fun _ f d hv => ?_⟩⟩
    · by_cases hk : k = key
      · rw [if_pos hk, hk, hnone]
        rfl
      · rw [if_neg hk]
    · rw [hnone] at hv
      contradiction
  | some fe =>
    rw [truncate, hf]
    dsimp only
    set fe₁ : FileEnt := if fe.sizeKnown = true then { fe with size := size } else fe with hfe₁
    have hpages : fe₁.pages = fe.pages := by
      rw [hfe₁]
      split <;> rfl
    obtain ⟨hfiles, hget⟩ := truncatePages_spec (firstGone size) w.cache fe₁
    rw [hpages] at hget ⊢
    set r := truncatePages (firstGone size) (w.cache, fe₁)
    set last := size / pageSize with hlast
    have hpast : ∀ j, firstGone size ≤ j → (r.2.pages.get? j).map Page.view =
          truncView size j ((fe.pages.get? j).map Page.view) := by
      intro j hj
      rw [hget, if_pos hj, map_view_truncPage hj]
    have hbelow : ∀ j, ¬firstGone size ≤ j → r.2.pages.get? j = fe.pages.get? j := by
      intro j hj
      rw [hget, if_neg hj]
    -- Unless the last page is being filled, it keeps its view.
    have hsame : (size % pageSize ≠ 0 → ¬firstGone size ≤ last → ∀ t b,
        (fe.pages.get? last).map Page.view ≠ some (.filling t b)) →
        ∀ j, (r.2.pages.get? j).map Page.view =
          truncView size j ((fe.pages.get? j).map Page.view) := by
      intro hno j
      by_cases hj : firstGone size ≤ j
      · exact hpast j hj
      rw [hbelow j hj, truncView_below hj]
      rintro rfl
      exact hno (fun h0 => hj (firstGone_le_of_aligned h0)) hj
    have hview : ∀ pg, w.cache.view key pg = (fe.pages.get? pg).map Page.view := fun pg => by
      rw [view_of_file hf]
    by_cases hoff : size % pageSize = 0
    · rw [if_pos hoff]
      obtain ⟨h1, h2⟩ := truncate_finish h size r.2 hf hfiles
        (hsame fun hne => absurd hoff hne) w.mem
      exact ⟨h1, h2, .inl ⟨rfl, fun hne => absurd hoff hne⟩⟩
    rw [if_neg hoff]
    cases hg : r.2.pages.get? last with
    | none =>
      have hviews := hsame fun _ hkept t b => by rw [← hbelow _ hkept, hg]; simp
      obtain ⟨h1, h2⟩ := truncate_finish h size r.2 hf hfiles hviews w.mem
      refine ⟨h1, h2, .inl ⟨rfl, fun _ f d hv => ?_⟩⟩
      rw [hview, ← hviews, hg] at hv
      contradiction
    | some p =>
      dsimp only
      by_cases hfill : p.state = .filling
      · rw [if_pos hfill]
        -- Past the end or not, the entry was this fill's.
        obtain ⟨q, hq, hqf, htok⟩ : ∃ q, fe.pages.get? last = some q ∧ q.state = .filling ∧
            q.token = p.token := truncPage_filling (hget last) hg hfill
        have hqv : q.view = .filling q.token q.flags.stale := Page.view_filling.mpr ⟨hqf, rfl, rfl⟩
        obtain ⟨h1, h2⟩ := truncate_finish h size { r.2 with
          pages := r.2.pages.insert last p.setStale } hf hfiles (fun j => by
            rw [get?_insert]
            by_cases hj : j = last
            · rw [if_pos hj, hj, hq, map_some, map_some, setStale_view hfill, hqv, htok, truncView]
              simp [hlast]
            rw [if_neg hj]
            by_cases hle : firstGone size ≤ j
            · exact hpast j hle
            · rw [hbelow j hle, truncView_below hle fun he => absurd he hj]) w.mem
        refine ⟨h1, h2, .inl ⟨rfl, fun _ f d hv => ?_⟩⟩
        rw [hview, hq, map_some, hqv] at hv
        cases hv
      · rw [if_neg hfill]
        -- A page that is still there and not being filled is not past the end.
        have hkept : ¬firstGone size ≤ last := by
          intro hle
          rw [hget, if_pos hle] at hg
          exact hfill (truncPage_some hg)
        have hq : fe.pages.get? last = some p := (hbelow _ hkept).symm.trans hg
        have hno : size % pageSize ≠ 0 → ¬firstGone size ≤ last → ∀ t b,
            (fe.pages.get? last).map Page.view ≠ some (.filling t b) := by
          intro _ _ t b hv
          rw [hq] at hv
          exact hfill (Page.view_filling.mp (Option.some.inj hv)).1
        rw [hview, hq, map_some]
        by_cases hz : p.phys ≠ 0
        · rw [if_pos hz]
          obtain ⟨h1, h2⟩ := truncate_finish h size r.2 hf hfiles (hsame hno)
            (w.zero p.phys (size % pageSize) pageSize).mem
          exact ⟨h1, h2, .inr ⟨p.phys, p.flags.dirty, by rw [Page.view_of_phys hz], rfl⟩⟩
        · rw [if_neg hz]
          obtain ⟨h1, h2⟩ := truncate_finish h size r.2 hf hfiles (hsame hno) w.mem
          refine ⟨h1, h2, .inl ⟨rfl, fun _ f d hv => hz ?_⟩⟩
          have hpub := (Page.view_cached.mp (Option.some.inj (truncView_cached hv).1)).1
          simp only [Page.published, Bool.and_eq_true, bne_iff_ne] at hpub
          exact hpub.2

/-! ### `end_fill` -/

/-- A view after `end_fill` brought the frame `phys`, the `i`-th of the fill. -/
def endView (token valid i phys : Nat) : Option View → Option View
  | some (.filling t b) =>
    if t = token then if b = true ∨ valid ≤ i * pageSize then none else some (.cached phys false)
    else some (.filling t b)
  | v => v

/-- A page is cached after `end_fill` if it was, or if the fill published it. -/
theorem endView_cached {token valid i phys f : Nat} {d : Bool}
    (h : endView token valid i phys v = some (.cached f d)) :
    v = some (.cached f d) ∨ (v = some (.filling token false) ∧ f = phys) := by
  rcases v with _ | ⟨t, b⟩ | ⟨g, d'⟩ | _
  · exact .inl h
  · rw [endView] at h
    split at h
    · next ht =>
      split at h
      · cases h
      · next hb =>
        cases h
        exact .inr ⟨by rw [ht, Bool.eq_false_of_not_eq_true fun hx => hb (.inl hx)], rfl⟩
    · cases h
  · exact .inl h
  · exact .inl h

/-- A fill still open after `end_fill` was open before. -/
theorem endView_filling {token valid i phys t : Nat} {b : Bool}
    (h : endView token valid i phys v = some (.filling t b)) : v = some (.filling t b) := by
  rcases v with _ | ⟨t', b'⟩ | ⟨g, d⟩ | _
  · exact h
  · rw [endView] at h
    split at h
    · split at h <;> cases h
    · exact h
  · exact h
  · exact h

theorem map_view_endPage {pages : OrdMap Page} {token valid i pg phys : Nat} (hphys : phys ≠ 0) :
    (endPage pages token valid i pg phys).map Page.view =
      endView token valid i phys ((pages.get? pg).map Page.view) := by
  rw [endPage, fillEnd]
  cases hg : pages.get? pg with
  | none => rfl
  | some p =>
    dsimp only
    -- a page of this fill ends as a page of the cache or is taken out; another stays
    by_cases hfor : p.fillingFor token = true
    · have hfill : p.state = .filling ∧ p.token = token := by
        simpa [fillingFor] using hfor
      have hv : (some p).map Page.view = some (.filling token p.flags.stale) :=
        congrArg some (Page.view_filling.mpr ⟨hfill.1, hfill.2, rfl⟩)
      rw [if_pos hfor, hv, endView, if_pos rfl]
      by_cases hst : p.flags.stale = true ∨ valid ≤ i * pageSize
      · rw [if_pos hst, if_pos (by simpa using hst)]
        rfl
      · rw [if_neg hst, if_neg (by simpa using hst)]
        simp [publish, Page.view, hphys]
    · rw [if_neg hfor]
      show some p.view = endView token valid i phys (some p.view)
      cases hv : p.view with
      | filling t =>
        obtain ⟨h1, h2, -⟩ := Page.view_filling.mp hv
        have hne : t ≠ token := by
          rintro rfl
          exact hfor (by simp [fillingFor, h1, h2])
        rw [endView, if_neg hne]
      | cached | hole => rfl

/-- One frame of `end_fill` goes into the index or back to the allocator. -/
theorem step_owns (token valid : Nat) (s : FillLoop) (i pg f phys : Nat) (hphys : phys ≠ 0) :
    let s' := s.step token valid i pg phys
    (s'.pages.total fun _ p => p.holds f) + s'.freed.count f =
      (s.pages.total fun _ p => p.holds f) + s.freed.count f + if phys = f then 1 else 0 := by
  have hcount : (s.freed ++ [phys]).count f = s.freed.count f + if phys = f then 1 else 0 := by
    rw [List.count_append, List.count_singleton]
    simp
  -- A placeholder of this fill holds nothing.
  have hzero : fillEnd s.pages token valid i pg ≠ .notOurs →
      ∃ p, s.pages.get? pg = some p ∧ p.holds f = 0 := by
    rw [fillEnd]
    cases hg : s.pages.get? pg with
    | none => exact fun h => absurd rfl h
    | some p =>
      dsimp only
      by_cases hfor : p.fillingFor token = true
      · simp only [fillingFor, Bool.and_eq_true, beq_iff_eq] at hfor
        exact fun _ => ⟨p, rfl, by simp [holds_eq, Page.published, hfor.1]⟩
      · rw [if_neg hfor]
        exact fun h => absurd rfl h
  rw [FillLoop.step]
  cases he : fillEnd s.pages token valid i pg with
  | notOurs =>
    dsimp only
    omega
  | discard =>
    obtain ⟨p, hg, hp⟩ := hzero (by simp [he])
    have herase := total_erase (fun _ p => holds f p) s.pages pg
    rw [hg, weight_some, hp] at herase
    dsimp only
    omega
  | publish =>
    obtain ⟨p, hg, hp⟩ := hzero (by simp [he])
    have hmod := total_modify (fun _ p => holds f p) s.pages pg
      fun p => p.publish phys
    have hnew : holds f (p.publish phys) = if phys = f then 1 else 0 := by
      simp [holds_eq, Page.published, publish, hphys]
    rw [hg, weight_some, hp, map_some, weight_some, hnew] at hmod
    dsimp only
    omega

/-- The frames of the fill are in the index or to be freed. -/
theorem endFillLoop_owns (token valid f : Nat) (frames : List Nat) (h0 : 0 ∉ frames) :
    ∀ (s : FillLoop) (i pg : Nat),
      let s' := endFillLoop token valid s i pg frames
      (s'.pages.total fun _ p => p.holds f) + s'.freed.count f =
        (s.pages.total fun _ p => p.holds f) + s.freed.count f + frames.count f := by
  induction frames with
  | nil => exact fun s i pg => rfl
  | cons phys frames ih =>
    intro s i pg
    have hstep := step_owns token valid s i pg f phys
      (fun he => h0 (he ▸ .head _))
    have hrest := ih (fun hm => h0 (.tail _ hm))
      (s.step token valid i pg phys) (i + 1) (pg + 1)
    rw [endFillLoop, List.count_cons]
    simp only [beq_iff_eq]
    omega

theorem endFillLoop_freed (token valid : Nat) (frames : List Nat) : ∀ (s : FillLoop) (i pg : Nat),
      ∀ f ∈ (endFillLoop token valid s i pg frames).freed, f ∈ s.freed ∨ f ∈ frames := by
  induction frames with
  | nil => exact fun s i pg f hf => .inl hf
  | cons phys frames ih =>
    intro s i pg f hf
    rcases ih _ _ _ f hf with hm | hm
    · -- A step frees at most its own frame.
      have hstep : f ∈ s.freed ∨ f = phys := by
        rw [FillLoop.step] at hm
        cases he : fillEnd s.pages token valid i pg with
        | publish => exact .inl (by simpa [he] using hm)
        | _ => simpa [he] using hm
      rcases hstep with hm | rfl
      · exact .inl hm
      · exact .inr (.head _)
    · exact .inr (.tail _ hm)

/-- **`end_fill`** ends the placeholders of its fill; a frame it does not publish
goes back to the allocator. -/
theorem endFill_spec {frames : List Nat}
    (h : w.Ledger fun f => held f + frames.count f) (h0 : 0 ∉ frames)
    (hone : ∀ f ∈ frames, w.cache.owns f + held f + frames.count f = 1)
    (key token pgoff valid : Nat) : (w.endFill key token pgoff frames valid).Ledger held ∧
    (w.endFill key token pgoff frames valid).mem = w.mem ∧
    SizesKept w.cache (w.endFill key token pgoff frames valid).cache ∧
    (∀ f, (w.endFill key token pgoff frames valid).cache.owns f ≤ w.cache.owns f + frames.count f) ∧
    ∀ k pg, (w.endFill key token pgoff frames valid).cache.view k pg =
      if k = key ∧ pgoff ≤ pg ∧ pg < pgoff + frames.length then
        endView token valid (pg - pgoff) (frames.getD (pg - pgoff) 0) (w.cache.view k pg)
      else w.cache.view k pg := by
  rw [endFill]
  cases hf : w.cache.files.get? key with
  | none =>
    refine ⟨Tracks.freeAll frames
      (Tracks.congr h fun f => Nat.add_assoc _ _ _) hone, rfl, .refl _,
      fun f => Nat.le_add_right _ _, fun k pg => ?_⟩
    by_cases hk : k = key ∧ pgoff ≤ pg ∧ pg < pgoff + frames.length
    · have hnone : w.cache.view k pg = none := by
        rw [hk.1, view_of_none hf]
      rw [if_pos hk, hnone]
      rfl
    · rw [if_neg hk]
  | some fe =>
    dsimp only
    set s := endFillLoop token valid ⟨fe.pages, [], 0, 0⟩ 0 pgoff frames with hs
    have hbal : ∀ f, (w.cache.setFile key { fe with pages := s.pages }).owns f +
        s.freed.count f = w.cache.owns f + frames.count f := by
      intro f
      have hset := owns_setFile hf { fe with pages := s.pages } f
      have hloop := endFillLoop_owns token valid f frames h0 ⟨fe.pages, [], 0, 0⟩ 0 pgoff
      rw [← hs] at hloop
      simp only [List.count_nil] at hloop
      have h1 : fe.owns f = fe.pages.total fun _ p => p.holds f := rfl
      have h2 : FileEnt.owns { fe with pages := s.pages } f =
          s.pages.total fun _ p => p.holds f := rfl
      omega
    refine ⟨Tracks.freeAll s.freed (Tracks.congr h fun f => ?_) fun f hfm => ?_,
      rfl, sizesKept_setFile hf rfl rfl, fun f => Nat.le.intro (hbal f), fun k pg => ?_⟩
    · have := hbal f
      show (w.cache.setFile key _).owns f + held f + _ = w.cache.owns f + (held f + _)
      omega
    · show (w.cache.setFile key _).owns f + held f + _ = 1
      have hb := hbal f
      -- The frame was one of the fill's: its only owner.
      have hmem : f ∈ frames := by
        rw [hs] at hfm
        exact (endFillLoop_freed token valid frames _ _ _ f hfm).resolve_left List.not_mem_nil
      have := hone f hmem
      omega
    · show (w.cache.setFile key _).view k pg = _
      rw [view, page?_setFile]
      by_cases hk : k = key
      · rw [if_pos hk, endFillLoop_pages]
        by_cases hp : pgoff ≤ pg ∧ pg < pgoff + frames.length
        · rw [if_pos hp, if_pos ⟨hk, hp⟩, Nat.zero_add, map_view_endPage, hk, view,
            page?_of_file hf]
          rw [List.getD_eq_getElem _ _ (by omega)]
          exact fun he => h0 (he ▸ List.getElem_mem _)
        · rw [if_neg hp, if_neg fun hx => hp hx.2, hk, view_of_file hf]
      · rw [if_neg hk, if_neg fun hx => hk hx.1]
        rfl

end World

end Leandros.Mm.PageCache
