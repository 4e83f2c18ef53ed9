import Leandros.Mm.PageCache.View

/-!
# Leandros.Mm.PageCache.Owns

**How many index entries hold a frame.** `Cache.owns` is the cache's share of the
ledger of `PageRef`; it only depends on the views, and each step moves it by
the frames it takes in or lets go.

It is a sum over the files of sums over their pages, so a change of one page is a change of one term:
`exists_without` gives the cache without that page, and `owns_change` compares two caches that differ
there. Where the invariant says that a frame is owned at most once, `owns_unique` makes two
entries with the same frame the same entry.
-/

namespace Leandros.Mm.PageCache

open OrdMap

/-- Does the entry hold frame `f`? -/
def View.holds (f : Nat) : Option View → Nat
  | some (.cached g _) => if g = f then 1 else 0
  | _ => 0

def Page.holds (f : Nat) (p : Page) : Nat := View.holds f (some p.view)

theorem Page.holds_eq (f : Nat) (p : Page) :
    p.holds f = if p.published = true ∧ p.phys = f then 1 else 0 := by
  obtain ⟨phys, token, state, flags, hempty⟩ := p
  cases state with
  | filling => simp [Page.holds, Page.view, View.holds, Page.published]
  | uptodate => by_cases h : phys = 0 <;> simp [Page.holds, Page.view, View.holds, Page.published, h]

/-- The entries of a file that hold `f`. -/
def FileEnt.owns (fe : FileEnt) (f : Nat) : Nat := fe.pages.total fun _ p => p.holds f

namespace Cache

/-- The entries that hold `f`. -/
def owns (c : Cache) (f : Nat) : Nat := c.files.total fun _ fe => fe.owns f

theorem holds_le_one (f : Nat) (v : Option View) : View.holds f v ≤ 1 := by
  rcases v with _ | v
  · exact Nat.zero_le _
  cases v with
  | cached =>
    rw [View.holds]
    split <;> omega
  | _ => exact Nat.zero_le _

variable {f : Nat} {c' : Cache}

theorem holds_eq_one {v : Option View} :
    View.holds f v = 1 ↔ ∃ d, v = some (.cached f d) := by
  rcases v with _ | v
  · simp [View.holds]
  cases v with
  | cached g d =>
    simp only [View.holds, Option.some.injEq, View.cached.injEq]
    constructor
    · intro h
      split at h
      · next hg => exact ⟨d, hg, rfl⟩
      · omega
    · rintro ⟨d', rfl, -⟩
      exact if_pos rfl
  | _ => simp [View.holds]

/-- The entries of one file that hold `f`, whether the file is there or not. -/
theorem weight_owns (c : Cache) (key f : Nat) :
    weight (fun _ fe => FileEnt.owns fe f) key (c.files.get? key) =
      ((c.files.get? key).getD .new).owns f := by
  cases c.files.get? key <;> rfl

theorem weight_holds (f pg : Nat) (o : Option Page) :
    weight (fun _ p => Page.holds f p) pg o = View.holds f (o.map Page.view) := by
  cases o <;> rfl

theorem owns_le {c : Cache}
    (h : ∀ k pg, View.holds f (c'.view k pg) ≤ View.holds f (c.view k pg)) : c'.owns f ≤ c.owns f := by
  refine total_le fun k => ?_
  rw [weight_owns, weight_owns]
  refine total_le fun pg => ?_
  rw [weight_holds, weight_holds, view_getD_new, view_getD_new]
  exact h k pg

/-- Views with the same frames make the same ledger. -/
theorem owns_of_holds {c : Cache}
    (h : ∀ f k pg, View.holds f (c'.view k pg) = View.holds f (c.view k pg)) (f : Nat) :
    c'.owns f = c.owns f :=
  le_antisymm (owns_le fun k pg => (h f k pg).le) (owns_le fun k pg => (h f k pg).ge)

variable {c : Cache}

/-- The ledger only depends on the views. -/
theorem owns_congr (h : ∀ k pg, c'.view k pg = c.view k pg) (f : Nat) :
    c'.owns f = c.owns f :=
  owns_of_holds (fun f k pg => by rw [h]) f

theorem owns_setFile {key : Nat} {fe : FileEnt} (h : c.files.get? key = some fe)
    (fe' : FileEnt) (f : Nat) : (c.setFile key fe').owns f + fe.owns f = c.owns f + fe'.owns f := by
  have := total_insert (fun _ fe => FileEnt.owns fe f) c.files key fe'
  rwa [h] at this

/-- The cache without one page. -/
theorem exists_without (c : Cache) (key pg : Nat) : ∃ c' : Cache,
    (∀ k j, c'.view k j = if k = key ∧ j = pg then none else c.view k j) ∧
      ∀ f, c'.owns f + View.holds f (c.view key pg) = c.owns f := by
  cases hf : c.files.get? key with
  | none =>
    refine ⟨c, fun k j => ?_, fun f => by rw [view_of_none hf]; rfl⟩
    split
    · next hk => rw [hk.1, view_of_none hf]
    · rfl
  | some fe =>
    refine ⟨c.setFile key { fe with pages := fe.pages.erase pg }, fun k j => ?_, fun f => ?_⟩
    · rw [view, page?_setFile, get?_erase]
      by_cases hk : k = key
      · rw [if_pos hk, hk, view_of_file hf]
        by_cases hj : j = pg
        · rw [if_pos hj, if_pos ⟨rfl, hj⟩]
          rfl
        · rw [if_neg hj, if_neg fun hc => hj hc.2]
      · rw [if_neg hk, if_neg fun hc => hk hc.1]
        rfl
    · -- what the page weighed is what the sum loses
      have hset := owns_setFile hf { fe with pages := fe.pages.erase pg } f
      have herase := total_erase (fun _ p => Page.holds f p) fe.pages pg
      rw [weight_holds, ← view_of_file hf] at herase
      simp only [FileEnt.owns] at hset
      omega

/-- A change of one view. -/
theorem owns_change (k pg : Nat)
    (h : ∀ k' pg', (k', pg') ≠ (k, pg) → c'.view k' pg' = c.view k' pg') (f : Nat) :
    c'.owns f + View.holds f (c.view k pg) = c.owns f + View.holds f (c'.view k pg) := by
  obtain ⟨d, hd, ho⟩ := exists_without c k pg
  obtain ⟨d', hd', ho'⟩ := exists_without c' k pg
  have hsame : d'.owns f = d.owns f := by
    refine owns_congr (fun i j => ?_) f
    rw [hd, hd']
    split
    · rfl
    · next hne => exact h i j fun he => hne (Prod.ext_iff.mp he)
  have := ho f
  have := ho' f
  omega

/-- An entry that holds `f` counts. -/
theorem owns_pos {k pg : Nat} {d : Bool} (h : c.view k pg = some (.cached f d)) :
    0 < c.owns f := by
  obtain ⟨c', -, ho⟩ := exists_without c k pg
  have hone : View.holds f (c.view k pg) = 1 := holds_eq_one.mpr ⟨d, h⟩
  have := ho f
  omega

/-- A frame with one entry has no other. -/
theorem owns_unique {k pg k' pg' : Nat} {d d' : Bool} (h1 : c.owns f ≤ 1)
    (h : c.view k pg = some (.cached f d)) (h' : c.view k' pg' = some (.cached f d')) :
    k' = k ∧ pg' = pg := by
  by_contra hne
  -- Without the first entry the second still counts.
  obtain ⟨c', hv, ho⟩ := exists_without c k pg
  have hone : View.holds f (c.view k pg) = 1 := holds_eq_one.mpr ⟨d, h⟩
  have hpos := owns_pos ((hv k' pg').trans ((if_neg hne).trans h'))
  have := ho f
  omega

/-- Fewer entries hold `f` if every view that holds it did before. -/
theorem owns_mono (h : ∀ k pg f d, c'.view k pg = some (.cached f d) →
    ∃ d', c.view k pg = some (.cached f d')) (f : Nat) : c'.owns f ≤ c.owns f := by
  refine owns_le fun k pg => ?_
  by_cases hv : View.holds f (c'.view k pg) = 1
  · obtain ⟨d, hd⟩ := holds_eq_one.mp hv
    rw [hv, holds_eq_one.mpr (h k pg f d hd)]
  · have := holds_le_one f (c'.view k pg)
    omega

end Cache

end Leandros.Mm.PageCache
