import Leandros.Lib.Machine
import Leandros.Mm.PageCache.File

/-!
# Leandros.Mm.PageCache.WriteBack

**Shared mappings and write-back.** Any number of mappers look pages up, mark
them dirty, store to them and let go; any number of write-back passes take dirty
pages, let the filesystem copy them (`pc_writeback_page`) and finish
(`writeback_done`); eviction runs in between. Each step is atomic. A step that
would wrap a reference count is left out, as in `Coherence`.

`writeback_done` clears the dirty flag when only the cache and the pass still
hold the frame. It does not know whether a mapper stored to the page after the
copy and let go before it. `Sys.unsaved` records the frames with such stores,
and `Kept` says that the flag is not cleared while there is one.

* `Inv.step` — one step keeps every clean page saved, under `Kept`.
* `clean_page_saved` — in every run of such steps, a clean page has the bytes the
  filesystem has, and eviction takes no other page.
* `store_after_copy_lost` — the run that loses a store.
-/

namespace Leandros.Mm.PageCache.WriteBack

open Function (update update_of_ne update_self)
open World
open View
open List (count_append count_pos_iff map_cons mem_cons mem_map mem_of_mem_erase not_mem_nil range)

open Frames (gain_apply)
open Cache (DirtyPage SizesKept fileSize init owns_mono owns_pos owns_unique view)

/-- A page of a shared file mapping, with a reference on its frame. -/
structure Mapping where
  key : Nat
  pgoff : Nat
  phys : Nat
  writable : Bool
  deriving DecidableEq

/-- A page in a write-back pass, and the answer of `pc_writeback_page`. -/
structure Pass where
  page : DirtyPage
  result : Option Bool
  deriving DecidableEq

/-- `unsaved`: the frames a mapper stored to since the filesystem last took
their bytes. -/
structure Sys where
  world : World
  files : Nat → FileData
  maps : List Mapping
  passes : List Pass
  unsaved : Finset Nat

open Sys

/-- The references the mappings and the passes have. -/
def Sys.outside (s : Sys) : List Nat := s.maps.map (·.phys) ++ s.passes.map (·.page.phys)

inductive Action
  | learn (key : Nat)
  /-- A fill from `begin_fill` to `end_fill`, into frames from the allocator. -/
  | fill (key pgoff want : Nat) (frames : List Nat)
  /-- `lookup`, for a mapping that cannot write yet. -/
  | map (key pgoff : Nat) (exec : Bool)
  /-- `mark_dirty`, and write access. -/
  | enable (m : Mapping)
  | store (m : Mapping) (off v : Nat)
  | unmap (m : Mapping)
  | take (lo hi : Nat) (mapped : Bool) (max : Nat)
  /-- `pc_writeback_page`; the filesystem takes up to `taken` bytes. -/
  | copy (p : Pass) (taken : Nat)
  | done (p : Pass)
  | reclaim (want : Nat)
  | emergency (busy : Nat → Bool) (want : Nat)
  | purge

namespace Sys

/-- The state after `pc_writeback_page` answered `ok`; `full`: nothing of the page
is missing in the file. -/
def answer (s : Sys) (p : Pass) (ok full : Bool) : Sys :=
  { s with
    passes := { p with result := some ok } :: s.passes.erase p
    unsaved := if full then s.unsaved.erase p.page.phys else s.unsaved }

/-- `pc_writeback_page`. -/
def copy (s : Sys) (p : Pass) (taken : Nat) : Sys :=
  let d := p.page
  match s.world.cache.fileSize d.key with
  | none => s.answer p false false
  | some size =>
    let start := d.pgoff * pageSize
    if start ≥ size then s.answer p true true
    else
      let len := min (size - start) pageSize
      if !s.world.cache.stillDirty d then s.answer p true false
      else
        let n := min taken len
        let data := (range n).map fun off => s.world.mem d.phys off
        let file := s.files d.key
        let s := { s with
          world := s.world.writeThrough d.key start data file.size (file.write start data).size
          files := update s.files d.key (file.write start data) }
        s.answer p (decide (n = len)) (decide (n = len))

/-- The frames a fill read, from `begin_fill`'s answer to `end_fill`. -/
def fill (s : Sys) (key pgoff token : Nat) (frames : List Nat) : Sys :=
  let file := s.files key
  let w := { s.world with
    frames := s.world.frames.allocAll frames
    mem := readFrames file pgoff frames s.world.mem }
  let valid := min (frames.length * pageSize) (file.size - pgoff * pageSize)
  { s with world := w.endFill key token pgoff frames valid }

/-- One step; `none` if it cannot be taken. -/
def step (s : Sys) : Action → Option Sys
  | .learn key => some { s with world :=
      { s.world with cache := s.world.cache.setSize key (s.files key).size } }
  | .fill key pgoff want frames =>
    let r := s.world.cache.beginFill key pgoff want
    let s := { s with world := { s.world with cache := r.2 } }
    match r.1 with
    | none => some s
    | some (token, n) =>
      if frames.length = n ∧ frames.Nodup ∧ 0 ∉ frames ∧ ∀ f ∈ frames, f ∉ s.world.frames.live then
        some (s.fill key pgoff token frames)
      else none
  | .map key pgoff exec =>
    if s.world.frames.hasRoom 1 then
      match s.world.lookup key pgoff exec with
      | (some f, w) => some { s with world := w, maps := ⟨key, pgoff, f, false⟩ :: s.maps }
      | (none, w) => some { s with world := w }
    else none
  | .enable m =>
    if m ∈ s.maps then
      match s.world.cache.markDirty m.key m.pgoff m.phys with
      | (true, c) => some { s with
          world := { s.world with cache := c }
          maps := { m with writable := true } :: s.maps.erase m }
      | (false, c) => some { s with world := { s.world with cache := c } }
    else none
  | .store m off v =>
    if m ∈ s.maps ∧ m.writable = true ∧ off < pageSize then
      some { s with
        world := { s.world with
          mem := update s.world.mem m.phys
            (update (s.world.mem m.phys) off v) }
        unsaved := insert m.phys s.unsaved }
    else none
  | .unmap m =>
    if m ∈ s.maps then
      some { s with world := s.world.unpin [m.phys], maps := s.maps.erase m }
    else none
  | .take lo hi mapped max =>
    let r := s.world.takeDirty lo hi mapped max []
    if s.world.frames.hasRoom r.1.length then
      some { s with world := r.2, passes := s.passes ++ r.1.map fun d => ⟨d, none⟩ }
    else none
  | .copy p taken =>
    if p ∈ s.passes ∧ p.result = none ∧ s.world.frames.hasRoom 1 then some (s.copy p taken)
    else none
  | .done p =>
    match p.result with
    | some ok =>
      if p ∈ s.passes then
        some { s with world := s.world.writebackDone p.page ok, passes := s.passes.erase p }
      else none
    | none => none
  | .reclaim want => some { s with world := (s.world.reclaimPages want).1 }
  | .emergency busy want => some { s with world := (s.world.emergencyReclaim busy want).1 }
  | .purge => some { s with world := s.world.purge }

end Sys

/-- At boot: an empty cache, no frame handed out, any files and any bytes. -/
def Boot (s : Sys) : Prop :=
  s.world.cache = .init ∧ s.world.frames = ⟨.empty, ∅, 0⟩ ∧ s.maps = [] ∧ s.passes = [] ∧
    s.unsaved = ∅

/-- A pass does not finish with a page that was stored to after the filesystem's
copy, unless a mapping or another pass still holds it. -/
def Kept (s : Sys) : Action → Prop
  | .done p => p.result = some true → p.page.phys ∈ s.unsaved → 2 < s.world.frames.get p.page.phys
  | _ => True

/-- The filesystem has the bytes of the page that belong to the file. -/
def Saved (s : Sys) (key pg f : Nat) : Prop :=
  ∀ off, off < pageSize → pg * pageSize + off < (s.files key).size →
    s.world.mem f off = (s.files key).byte (pg * pageSize + off)

/-- Eviction. -/
def Action.evicts : Action → Bool
  | .reclaim _ | .emergency _ _ | .purge => true
  | _ => false

/-! ### The invariant -/

structure Inv (s : Sys) : Prop where
  ledger : s.world.Ledger (s.outside.count ·)
  one : ∀ f, s.world.cache.owns f ≤ 1
  maps : ∀ m ∈ s.maps, ∃ d, s.world.cache.view m.key m.pgoff = some (.cached m.phys d)
  passes : ∀ p ∈ s.passes, ∃ d,
    s.world.cache.view p.page.key p.page.pgoff = some (.cached p.page.phys d)
  /-- A clean page has no store to save, and nobody can store to it. -/
  clean : ∀ k pg f, s.world.cache.view k pg = some (.cached f false) →
    f ∉ s.unsaved ∧ ∀ m ∈ s.maps, m.phys = f → m.writable = false
  unsaved : ∀ f ∈ s.unsaved, ∃ k pg, s.world.cache.view k pg = some (.cached f true)
  saved : ∀ k pg f d, s.world.cache.view k pg = some (.cached f d) → f ∉ s.unsaved → Saved s k pg f
  sizes : ∀ k size, s.world.cache.fileSize k = some size → size = (s.files k).size

variable {s : Sys}

theorem Inv.boot (h : Boot s) : Inv s := by
  obtain ⟨hc, hf, hmaps, hpasses, hun⟩ := h
  have hview : ∀ k pg, s.world.cache.view k pg = none := fun k pg => by rw [hc]; rfl
  have hown : ∀ f, s.world.cache.owns f = 0 := fun f => by rw [hc]; rfl
  refine ⟨?_, fun f => by rw [hown]; omega, fun m hm => ?_, fun p hp => ?_, fun k pg f hv => ?_,
    fun f hf' => ?_, fun k pg f d hv => ?_, fun k size hs => ?_⟩
  · rw [Ledger, hf]
    refine ⟨fun f => ?_, fun f => ?_, rfl⟩
    · simp [hown, outside, hmaps, hpasses]
    · simp [hown, outside, hmaps, hpasses]
  · exact absurd (hmaps ▸ hm) not_mem_nil
  · exact absurd (hpasses ▸ hp) not_mem_nil
  · exact absurd ((hview k pg).symm.trans hv) (by simp)
  · exact absurd (hun ▸ hf') (Finset.notMem_empty f)
  · exact absurd ((hview k pg).symm.trans hv) (by simp)
  · rw [hc] at hs
    exact absurd hs (by simp [fileSize, init])

variable {w : World} {s' : Sys} {m : Mapping} {p : Pass}

section

variable (h : Inv s)
include h

theorem Inv.kept {c : Cache} (hs : SizesKept s.world.cache c) :
    ∀ k size, c.fileSize k = some size → size = (s.files k).size :=
  fun k size hsz => h.sizes k size (hs k size hsz)

section

-- a step that stores nothing
variable (maps : List Mapping) (passes : List Pass)
  (hl : w.Ledger ((maps.map (·.phys) ++ passes.map (·.page.phys)).count ·))
  (hm : w.mem = s.world.mem) (hmaps : ∀ m ∈ maps, m ∈ s.maps ∨ (m.writable = false ∧
    ∃ d, w.cache.view m.key m.pgoff = some (.cached m.phys d)))
  (hpasses : ∀ p ∈ passes, (∃ q ∈ s.passes, q.page = p.page) ∨
    ∃ d, w.cache.view p.page.key p.page.pgoff = some (.cached p.page.phys d))
  (hs : ∀ k size, w.cache.fileSize k = some size → size = (s.files k).size)
include hl hm hmaps hpasses hs

/-- Cached pages were there before, and a page that is dirty or referenced stays. -/
theorem Inv.keep (hc : ∀ k pg f d, w.cache.view k pg = some (.cached f d) →
      s.world.cache.view k pg = some (.cached f d))
    (hkeep : ∀ k pg f d, s.world.cache.view k pg = some (.cached f d) →
      0 < s.outside.count f ∨ d = true → w.cache.view k pg = some (.cached f d)) :
    Inv { s with world := w, maps := maps, passes := passes } := by
  refine ⟨hl, fun f => (owns_mono (fun k pg f d hv => ⟨d, hc k pg f d hv⟩) f).trans
    (h.one f), fun m hm' => ?_, fun p hp => ?_, fun k pg f hv => ?_, fun f hf => ?_,
    fun k pg f d hv hf => ?_, hs⟩
  · -- what is mapped or held by a pass has a count outside the cache, so its page stays
    rcases hmaps m hm' with hold | ⟨-, hnew⟩
    · obtain ⟨d, hd⟩ := h.maps m hold
      refine ⟨d, hkeep _ _ _ _ hd (.inl (count_pos_iff.mpr ?_))⟩
      exact List.mem_append_left _ (List.mem_map_of_mem hold)
    · exact hnew
  · rcases hpasses p hp with ⟨q, hq, hqp⟩ | hnew
    · obtain ⟨d, hd⟩ := h.passes q hq
      rw [← hqp]
      refine ⟨d, hkeep _ _ _ _ hd (.inl (count_pos_iff.mpr ?_))⟩
      exact List.mem_append_right _ (mem_map.mpr ⟨q, hq, rfl⟩)
    · exact hnew
  · obtain ⟨h1, h2⟩ := h.clean k pg f (hc k pg f false hv)
    refine ⟨h1, fun m hm' hmf => ?_⟩
    rcases hmaps m hm' with hold | ⟨hro, -⟩
    · exact h2 m hold hmf
    · exact hro
  · -- what is not saved yet is dirty, and dirty pages stay
    obtain ⟨k, pg, hv⟩ := h.unsaved f hf
    exact ⟨k, pg, hkeep k pg f true hv (.inr rfl)⟩
  · intro off hoff hlt
    rw [hm]
    exact h.saved k pg f d (hc k pg f d hv) hf off hoff hlt

/-- No view changes. -/
theorem Inv.same (hv : ∀ k pg, w.cache.view k pg = s.world.cache.view k pg) :
    Inv { s with world := w, maps := maps, passes := passes } :=
  h.keep maps passes hl hm hmaps hpasses hs (fun k pg _ _ hd => (hv k pg).symm.trans hd)
    fun k pg _ _ hd _ => (hv k pg).trans hd

end

/-! ### Mappings and eviction -/

theorem Inv.evicts (hs : Evicts (s.outside.count ·) s.world w) :
    Inv { s with world := w } :=
  h.keep s.maps s.passes hs.sheds.1 hs.sheds.2.1
    (fun _ hm => .inl hm) (fun p hp => .inl ⟨p, hp, rfl⟩) (h.kept hs.sizes)
    (fun k pg _ _ hv => (hs.sheds.2.2 k pg).cached hv)
    fun k pg _ _ hv hkeep => ((hs.sheds.2.2 k pg).keeps hv hkeep).trans hv

theorem Inv.learn (key : Nat) :
    Inv { s with world := { s.world with
      cache := s.world.cache.setSize key (s.files key).size } } := by
  refine h.same s.maps s.passes (h.ledger.setSize key _) rfl (fun _ hm => .inl hm)
    (fun p hp => .inl ⟨p, hp, rfl⟩) (fun k size hsz => ?_) (Cache.view_setSize _ _ _)
  rw [Cache.setSize] at hsz
  split at hsz
  · exact h.sizes k size hsz
  rw [fileSize, Cache.setFile] at hsz
  rw [OrdMap.get?_insert] at hsz
  by_cases hk : k = key
  · rw [if_pos hk] at hsz
    rw [hk]
    exact (Option.some.inj hsz).symm
  · rw [if_neg hk] at hsz
    exact h.sizes k size hsz

theorem Inv.map {key pgoff : Nat} {exec : Bool}
    (hs : s.step (.map key pgoff exec) = some s') : Inv s' := by
  rw [Sys.step] at hs
  obtain ⟨hroom, hs⟩ := Option.ite_none_right_eq_some.mp hs
  rcases lookup_spec h.ledger (h.ledger.room hroom) key pgoff exec with
    hl | ⟨f, d, w, hl, hv, hview, hmem, hled, hkept⟩
  · rw [hl] at hs
    cases hs
    exact h
  rw [hl] at hs
  cases hs
  refine h.same _ s.passes (hled.congr rfl (fun _ _ => rfl) fun g => ?_) hmem (fun m hm => ?_)
    (fun p hp => .inl ⟨p, hp, rfl⟩) (h.kept hkept) hview
  · rw [map_cons, List.cons_append, Frames.count_cons_apply, gain_apply]
    rfl
  · rcases mem_cons.mp hm with rfl | hm
    · exact .inr ⟨rfl, d, (hview _ _).trans hv⟩
    · exact .inl hm

omit h in
theorem count_map_erase {α : Type} [DecidableEq α] (g : α → Nat) {l : List α} {a : α}
    (ha : a ∈ l) (f : Nat) : (l.map g).count f = ((l.erase a).map g).count f + [g a].count f := by
  rw [((List.perm_cons_erase ha).map g).count_eq, map_cons, List.count_cons, List.count_singleton]

omit h in
/-- An element changed in place. -/
theorem count_map_replace {α : Type} [DecidableEq α] (g : α → Nat) {l : List α} {a b : α}
    (ha : a ∈ l) (hb : g b = g a) (f : Nat) :
    ((b :: l.erase a).map g).count f = (l.map g).count f := by
  rw [count_map_erase g ha, map_cons, List.count_cons, List.count_singleton, hb]

theorem Inv.unmap (hm : m ∈ s.maps) :
    Inv { s with world := s.world.unpin [m.phys], maps := s.maps.erase m } := by
  refine h.same _ s.passes (Ledger.unpin (h.ledger.congr rfl (fun _ _ => rfl) fun f => ?_)) rfl
    (fun m' hm' => .inl (mem_of_mem_erase hm')) (fun p hp => .inl ⟨p, hp, rfl⟩) h.sizes fun _ _ => rfl
  have := count_map_erase (·.phys) hm f
  rw [outside, count_append, count_append]
  omega

/-- The page of a writable mapping is dirty. -/
theorem Inv.dirty_of_writable (hm : m ∈ s.maps) (hw : m.writable = true) :
    s.world.cache.view m.key m.pgoff = some (.cached m.phys true) := by
  obtain ⟨d, hd⟩ := h.maps m hm
  cases d with
  | true => exact hd
  | false =>
    have := (h.clean _ _ _ hd).2 m hm rfl
    exact absurd (this.symm.trans hw) (by simp)

/-- A store goes through a writable mapping, so its page is dirty already. -/
theorem Inv.store (hm : m ∈ s.maps) (hw : m.writable = true) (off v : Nat) :
    Inv { s with
      world := { s.world with
        mem := update s.world.mem m.phys (update (s.world.mem m.phys) off v) }
      unsaved := insert m.phys s.unsaved } := by
  have hdirty := h.dirty_of_writable hm hw
  refine ⟨h.ledger, h.one, h.maps, h.passes, fun k pg f hv => ?_, fun f hf => ?_,
    fun k pg f d hv hf => ?_, h.sizes⟩
  · obtain ⟨h1, h2⟩ := h.clean k pg f hv
    refine ⟨fun hf => ?_, h2⟩
    rcases Finset.mem_insert.mp hf with rfl | hf
    · exact absurd ((h2 m hm rfl).symm.trans hw) (by simp)
    · exact h1 hf
  · rcases Finset.mem_insert.mp hf with rfl | hf
    · exact ⟨_, _, hdirty⟩
    · exact h.unsaved f hf
  · rw [Finset.mem_insert, not_or] at hf
    intro o ho hlt
    show update s.world.mem m.phys _ f o = _
    rw [update_of_ne hf.1]
    exact h.saved k pg f d hv hf.2 o ho hlt

/-- A fault that makes a mapping writable marks the page dirty first. -/
theorem Inv.enable (hs : s.step (.enable m) = some s') : Inv s' := by
  obtain ⟨hm, hs⟩ := Option.ite_none_right_eq_some.mp hs
  obtain ⟨d₀, hd₀⟩ := h.maps m hm
  have hphys : m.phys ≠ 0 := Cache.cached_ne_zero hd₀
  have hled := h.ledger.markDirty m.key m.pgoff hphys
  rcases Cache.markDirty_spec s.world.cache m.key m.pgoff m.phys hphys with
    hd | ⟨h1, hkept, -, hview⟩
  · rw [hd] at hs
    cases hs
    exact h
  generalize s.world.cache.markDirty m.key m.pgoff m.phys = r at hs hled hkept h1 hview
  obtain ⟨b, c⟩ := r
  obtain rfl : b = true := h1
  cases hs
  -- the two caches differ in the dirty bit of one page
  have hto : ∀ k pg f d, s.world.cache.view k pg = some (.cached f d) →
      ∃ d', c.view k pg = some (.cached f d') := by
    intro k pg f d hv
    rw [hview]
    split
    · next hk =>
      rw [hk.1, hk.2, hd₀] at hv
      simp only [Option.some.injEq, cached.injEq] at hv
      exact ⟨true, by rw [hv.1]⟩
    · exact ⟨d, hv⟩
  have hfrom : ∀ k pg f d, c.view k pg = some (.cached f d) →
      ∃ d', s.world.cache.view k pg = some (.cached f d') ∧ (d = false → d' = false ∧
        f ≠ m.phys) := by
    intro k pg f d hv
    rw [hview] at hv
    split at hv
    · next hk =>
      simp only [Option.some.injEq, cached.injEq] at hv
      refine ⟨d₀, by rw [hk.1, hk.2, ← hv.1, hd₀], fun hd => ?_⟩
      exact absurd (hv.2.trans hd) (by simp)
    · next hk =>
      -- a clean page is another one, and a frame is in one place
      refine ⟨d, hv, fun hd => ⟨hd, ?_⟩⟩
      rintro rfl
      exact hk (owns_unique (h.one m.phys) hd₀ hv)
  refine ⟨hled.congr rfl (fun _ _ => rfl) fun f => ?_,
    fun f => (owns_mono (fun k pg f d hv => ⟨_, (hfrom k pg f d hv).choose_spec.1⟩)
      f).trans (h.one f), fun m' hm' => ?_, fun p hp => ?_, fun k pg f hv => ?_,
    fun f hf => ?_, fun k pg f d hv hf => ?_, h.kept hkept⟩
  · rw [outside, outside, count_append, count_append]
    exact congrArg (· + _) (count_map_replace (·.phys) hm rfl f)
  · rcases mem_cons.mp hm' with rfl | hm'
    · exact ⟨true, by rw [hview, if_pos ⟨rfl, rfl⟩]⟩
    · obtain ⟨d, hd⟩ := h.maps m' (mem_of_mem_erase hm')
      exact hto _ _ _ _ hd
  · obtain ⟨d, hd⟩ := h.passes p hp
    exact hto _ _ _ _ hd
  · obtain ⟨d', hd', hclean⟩ := hfrom k pg f false hv
    obtain ⟨rfl, hne⟩ := hclean rfl
    obtain ⟨h1, h2⟩ := h.clean k pg f hd'
    refine ⟨h1, fun m' hm' hmf => ?_⟩
    rcases mem_cons.mp hm' with rfl | hm'
    · exact absurd hmf.symm hne
    · exact h2 m' (mem_of_mem_erase hm') hmf
  · obtain ⟨k, pg, hv⟩ := h.unsaved f hf
    obtain ⟨d', hd'⟩ := hto k pg f true hv
    cases d' with
    | true => exact ⟨k, pg, hd'⟩
    | false =>
      obtain ⟨d'', hd'', hclean⟩ := hfrom k pg f false hd'
      rw [(hclean rfl).1, hv] at hd''
      cases hd''
  · obtain ⟨d', hd', -⟩ := hfrom k pg f d hv
    exact h.saved k pg f d' hd' hf

/-! ### Write-back -/

theorem Inv.take {lo hi max : Nat} {mapped : Bool}
    (hroom : s.world.frames.hasRoom (s.world.takeDirty lo hi mapped max []).1.length = true) :
    let r := s.world.takeDirty lo hi mapped max []
    Inv { s with world := r.2, passes := s.passes ++ r.1.map fun d => ⟨d, none⟩ } := by
  obtain ⟨picked, w, hr, hpicked, hcache, hmem, hled⟩ :=
    takeDirty_spec h.ledger lo hi mapped max [] (h.ledger.room hroom)
  rw [hr]
  refine h.same s.maps _ (hled.congr rfl (fun _ _ => rfl) fun f => ?_) hmem
    (fun _ hm => .inl hm) (fun p hp => ?_) (by rw [hcache]; exact h.sizes) fun k pg => by rw [hcache]
  · rw [outside, List.map_append, List.nil_append, List.map_map]
    simp only [count_append, Function.comp_def]
    omega
  · rcases List.mem_append.mp hp with hp | hp
    · exact .inl ⟨p, hp, rfl⟩
    · obtain ⟨d, hd, rfl⟩ := mem_map.mp hp
      exact .inr ⟨true, by rw [hcache]; exact hpicked d hd⟩

/-- The end of `pc_writeback_page`. -/
theorem Inv.answer (hp : p ∈ s.passes) (ok : Bool) {full : Bool}
    (hfull : full = true → Saved s p.page.key p.page.pgoff p.page.phys) :
    Inv (s.answer p ok full) := by
  have hsub : ∀ f, f ∈ (s.answer p ok full).unsaved → f ∈ s.unsaved := by
    intro f hf
    rw [Sys.answer] at hf
    split at hf
    · exact Finset.mem_of_mem_erase hf
    · exact hf
  refine ⟨h.ledger.congr rfl (fun _ _ => rfl) fun f => ?_, h.one, h.maps, fun q hq => ?_,
    fun k pg f hv => ?_, fun f hf => h.unsaved f (hsub f hf), fun k pg f d hv hf => ?_, h.sizes⟩
  · rw [outside, outside, count_append, count_append]
    exact congrArg (_ + ·) (count_map_replace (·.page.phys) hp rfl f)
  · rcases mem_cons.mp hq with rfl | hq
    · exact h.passes p hp
    · exact h.passes q (mem_of_mem_erase hq)
  · obtain ⟨h1, h2⟩ := h.clean k pg f hv
    exact ⟨fun hf => h1 (hsub f hf), h2⟩
  · by_cases hun : f ∈ s.unsaved
    · -- Taken out by this answer: the filesystem has the page.
      rw [Sys.answer] at hf
      split at hf
      · next hfl =>
        have hfp : f = p.page.phys := by
          by_contra hne
          exact hf (Finset.mem_erase.mpr ⟨hne, hun⟩)
        obtain ⟨d', hd'⟩ := h.passes p hp
        have hv' : s.world.cache.view k pg = some (.cached p.page.phys d) := hfp ▸ hv
        obtain ⟨rfl, rfl⟩ := owns_unique (h.one _) hd' hv'
        rw [hfp]
        exact hfull hfl
      · exact absurd hun hf
    · exact h.saved k pg f d hv hun

end

/-- The first `n` bytes of a frame. -/
def firstBytes (w : World) (f n : Nat) : List Nat := (range n).map fun off => w.mem f off

theorem firstBytes_getD (w : World) {f n i : Nat} (hi : i < n) :
    (firstBytes w f n).getD i 0 = w.mem f i := by
  rw [firstBytes, List.getD_eq_getElem _ _ (by simpa using hi)]
  simp

/-- The state once the filesystem took the first `n` bytes of the page. -/
def Sys.took (s : Sys) (d : DirtyPage) (n : Nat) : Sys :=
  let file := s.files d.key
  let data := firstBytes s.world d.phys n
  { s with
    world := s.world.writeThrough d.key (d.pgoff * pageSize) data file.size
      (file.write (d.pgoff * pageSize) data).size
    files := update s.files d.key (file.write (d.pgoff * pageSize) data) }

section

variable (h : Inv s)
include h

/-- The filesystem's copy changes no byte of a cached page inside its file, and
the file gets the bytes of the frame. -/
theorem Inv.took (hroom : s.world.frames.hasRoom 1 = true) (hp : p ∈ s.passes) {n : Nat}
    (hn : n ≤ pageSize) (hsize : p.page.pgoff * pageSize + n ≤ (s.files p.page.key).size) :
    Inv (s.took p.page n) ∧
      (min ((s.files p.page.key).size - p.page.pgoff * pageSize) pageSize ≤ n →
        Saved (s.took p.page n) p.page.key p.page.pgoff p.page.phys) := by
  set d := p.page
  set start := d.pgoff * pageSize with hstart
  set file := s.files d.key with hfile
  set data := firstBytes s.world d.phys n with hdata
  have hlen : data.length = n := by simp [hdata, firstBytes]
  have hnew : (file.write start data).size = file.size := by
    rw [FileData.write]
    dsimp only
    omega
  have hw := writeThrough_spec h.ledger h.one (h.ledger.room hroom) d.key start data file.size
    (file.write start data).size
  set w := s.world.writeThrough d.key start data file.size (file.write start data).size with hwdef
  obtain ⟨dd, hdv⟩ := h.passes p hp
  -- A byte of the file in the written range is a byte of this page.
  have hin : ∀ pg off, off < pageSize → start ≤ pg * pageSize + off →
      pg * pageSize + off < start + data.length → pg = d.pgoff ∧ off < n := by
    intro pg off hoff h1 h2
    have hpg : pg = d.pgoff := by
      unfold pageSize at *
      omega
    rw [hpg] at h2
    exact ⟨hpg, by omega⟩
  have hmem : ∀ k pg f d', s.world.cache.view k pg = some (.cached f d') → ∀ off,
      off < pageSize → pg * pageSize + off < (s.files k).size → w.mem f off = s.world.mem f off := by
    intro k pg f d' hv off hoff hlt
    by_cases hk : k = d.key
    · by_cases hr : start ≤ pg * pageSize + off ∧ pg * pageSize + off < start + data.length
      · obtain ⟨rfl, hoffn⟩ := hin pg off hoff hr.1 hr.2
        have hf : f = d.phys := by
          rw [hk, hdv] at hv
          simp only [Option.some.injEq, cached.injEq] at hv
          exact hv.1.symm
        rw [hw.inside _ f d' (hk ▸ hv) off hoff hr.1 hr.2, hf,
          Nat.add_sub_cancel_left, firstBytes_getD _ hoffn]
      · rcases hw.outside pg f d' (hk ▸ hv) off hoff hr with hs | ⟨-, hle⟩
        · exact hs
        · rw [hk, ← hfile] at hlt
          omega
    · rw [hw.other f fun pg' d'' hv' => hk (owns_unique (h.one f) hv' hv).1]
  have hfiles : ∀ k, ((s.took d n).files k).size = (s.files k).size := by
    intro k
    rw [Sys.took]
    dsimp only
    by_cases hk : k = d.key
    · rw [hk, update_self]
      exact hnew
    · rw [update_of_ne hk]
  -- What the file has at a byte of page `pg`: the frame's byte, or the old one.
  have hbyte : ∀ pg off, off < pageSize → ((s.took d n).files d.key).byte (pg * pageSize + off) =
        if pg = d.pgoff ∧ off < n then s.world.mem d.phys off
        else file.byte (pg * pageSize + off) := by
    intro pg off hoff
    rw [Sys.took]
    dsimp only
    rw [update_self, FileData.write]
    dsimp only
    rw [← hdata]
    by_cases hr : start ≤ pg * pageSize + off ∧ pg * pageSize + off < start + data.length
    · obtain ⟨hpg, hoffn⟩ := hin pg off hoff hr.1 hr.2
      rw [if_pos hr, if_pos ⟨hpg, hoffn⟩, hpg, Nat.add_sub_cancel_left,
        firstBytes_getD _ hoffn]
    · rw [if_neg hr, if_neg fun hx => hr ?_]
      rw [hx.1]
      omega
  have hsaved : ∀ k pg f d', s.world.cache.view k pg = some (.cached f d') → Saved s k pg f →
      Saved (s.took d n) k pg f := by
    intro k pg f d' hv hold off hoff hlt
    rw [hfiles] at hlt
    show w.mem f off = _
    rw [hmem k pg f d' hv off hoff hlt]
    by_cases hk : k = d.key
    · rw [hk, hbyte pg off hoff]
      split
      · next hx =>
        rw [hk, hx.1, hdv] at hv
        simp only [Option.some.injEq, cached.injEq] at hv
        rw [hv.1]
      · rw [hold off hoff hlt, hk]
    · rw [hold off hoff hlt]
      show _ = (update s.files d.key _ k).byte _
      rw [update_of_ne hk]
  refine ⟨⟨hw.ledger, fun f => (owns_mono (fun k pg f d' hv =>
      ⟨d', (hw.doomed k pg).cached.mp hv⟩) f).trans (h.one f), fun m hm => ?_, fun q hq => ?_,
      fun k pg f hv => h.clean k pg f ((hw.doomed k pg).cached.mp hv), fun f hf => ?_,
      fun k pg f d' hv hf => ?_, fun k size hsz => ?_⟩, fun hle off hoff hlt => ?_⟩
  · obtain ⟨d', hd'⟩ := h.maps m hm
    exact ⟨d', (hw.doomed _ _).cached.mpr hd'⟩
  · obtain ⟨d', hd'⟩ := h.passes q hq
    exact ⟨d', (hw.doomed _ _).cached.mpr hd'⟩
  · obtain ⟨k, pg, hv⟩ := h.unsaved f hf
    exact ⟨k, pg, (hw.doomed k pg).cached.mpr hv⟩
  · have hv' := (hw.doomed k pg).cached.mp hv
    exact hsaved k pg f d' hv' (h.saved k pg f d' hv' hf)
  · rw [hfiles]
    refine h.kept ?_ k size hsz
    show SizesKept s.world.cache w.cache
    rw [hwdef, hnew]
    exact sizesKept_writeThrough _ _ _ _ (by omega)
  · rw [hfiles] at hlt
    have hoffn : off < n := by
      rw [← hfile] at hlt
      omega
    show w.mem d.phys off = _
    rw [hmem d.key d.pgoff d.phys dd hdv off hoff hlt, hbyte d.pgoff off hoff, if_pos ⟨rfl, hoffn⟩]

/-- The file gets the bytes of the page, or the pass fails. -/
theorem Inv.copy (hroom : s.world.frames.hasRoom 1 = true) (hp : p ∈ s.passes) (taken : Nat) :
    Inv (s.copy p taken) := by
  rw [Sys.copy]
  cases hsz : s.world.cache.fileSize p.page.key with
  | none => exact h.answer hp false (fun hx => absurd hx (by simp))
  | some size =>
    have hsize := h.sizes _ _ hsz
    dsimp only
    split
    · next hpast =>
      refine h.answer hp true fun _ off hoff hlt => ?_
      omega
    · next hin =>
      split
      · exact h.answer hp true fun hx => absurd hx (by simp)
      set n := min taken (min (size - p.page.pgoff * pageSize) pageSize)
      obtain ⟨h1, h2⟩ := h.took hroom hp (n := n) (by omega) (by omega)
      refine h1.answer hp _ fun hfull => h2 ?_
      rw [decide_eq_true_iff] at hfull
      omega

/-- The end of a pass that `Kept` allows cleans only what has been saved. -/
theorem Inv.done (hp : p ∈ s.passes) {ok : Bool}
    (hres : p.result = some ok) (hkept : Kept s (.done p)) :
    Inv { s with world := s.world.writebackDone p.page ok, passes := s.passes.erase p } := by
  obtain ⟨d₀, hd₀⟩ := h.passes p hp
  have hphys := Cache.cached_ne_zero hd₀
  have hcount := count_map_erase (·.page.phys) hp
  have hled : (s.world.writebackDone p.page ok).Ledger
      ((s.maps.map (·.phys) ++ (s.passes.erase p).map (·.page.phys)).count ·) := by
    refine Ledger.writebackDone (h.ledger.congr rfl (fun _ _ => rfl) fun f => ?_) hphys
    rw [gain_apply, outside, count_append, count_append, hcount, List.count_singleton]
    by_cases hf : f = p.page.phys
    · rw [hf]
      simp
      omega
    · rw [if_neg hf, if_neg (by simpa using Ne.symm hf)]
      omega
  have hpasses : ∀ q ∈ s.passes.erase p, q ∈ s.passes := fun q hq => mem_of_mem_erase hq
  rcases writebackDone_view s.world p.page ok hphys with ⟨hc, hsz, hview⟩ | ⟨-, hcache⟩
  · -- Marked clean: nobody else has the frame, and no store is missing.
    obtain ⟨hok, hdirty, hget⟩ := hc
    have hsaved : p.page.phys ∉ s.unsaved := by
      intro hun
      have := hkept (by rw [hres, hok]) hun
      omega
    have hnomap : ∀ m ∈ s.maps, m.phys ≠ p.page.phys := by
      intro m hm hmp
      have hg := h.ledger.get_eq hdirty
      have hpos := owns_pos hdirty
      have hm' : 0 < (s.maps.map (·.phys)).count p.page.phys :=
        count_pos_iff.mpr (mem_map.mpr ⟨m, hm, hmp⟩)
      have hc' := hcount p.page.phys
      rw [List.count_singleton_self] at hc'
      rw [outside, count_append] at hg
      omega
    have hto : ∀ k pg f d, s.world.cache.view k pg = some (.cached f d) →
        f ≠ p.page.phys → (s.world.writebackDone p.page ok).cache.view k pg =
          some (.cached f d) := by
      intro k pg f d hv hne
      rw [hview, if_neg, hv]
      rintro ⟨rfl, rfl⟩
      rw [hdirty] at hv
      simp only [Option.some.injEq, cached.injEq] at hv
      exact hne hv.1.symm
    have hfrom : ∀ k pg f d, (s.world.writebackDone p.page ok).cache.view k pg =
        some (.cached f d) → (f = p.page.phys ∧ s.world.cache.view k pg = some (.cached f true)) ∨
          s.world.cache.view k pg = some (.cached f d) := by
      intro k pg f d hv
      rw [hview] at hv
      split at hv
      · next hk =>
        simp only [Option.some.injEq, cached.injEq] at hv
        exact .inl ⟨hv.1.symm, by rw [hk.1, hk.2, ← hv.1, hdirty]⟩
      · exact .inr hv
    refine ⟨hled, fun f => (owns_mono (fun k pg f d hv => ?_) f).trans (h.one f),
      fun m hm => ?_, fun q hq => ?_, fun k pg f hv => ?_, fun f hf => ?_,
      fun k pg f d hv hf => ?_, h.kept hsz⟩
    · rcases hfrom k pg f d hv with ⟨-, hs⟩ | hs
      · exact ⟨_, hs⟩
      · exact ⟨_, hs⟩
    · obtain ⟨d, hd⟩ := h.maps m hm
      exact ⟨d, hto _ _ _ _ hd (hnomap m hm)⟩
    · obtain ⟨d, hd⟩ := h.passes q (hpasses q hq)
      by_cases hne : q.page.phys = p.page.phys
      · rw [hne] at hd ⊢
        obtain ⟨hk, hpg⟩ := owns_unique (h.one _) hdirty hd
        exact ⟨false, by rw [hview, if_pos ⟨hk, hpg⟩]⟩
      · exact ⟨d, hto _ _ _ _ hd hne⟩
    · rcases hfrom k pg f false hv with ⟨rfl, -⟩ | hs
      · exact ⟨hsaved, fun m hm hmf => absurd hmf (hnomap m hm)⟩
      · exact h.clean k pg f hs
    · obtain ⟨k, pg, hv⟩ := h.unsaved f hf
      exact ⟨k, pg, hto k pg f true hv fun he => hsaved (he ▸ hf)⟩
    · rcases hfrom k pg f d hv with ⟨-, hs⟩ | hs
      · exact h.saved k pg f _ hs hf
      · exact h.saved k pg f _ hs hf
  · exact h.same s.maps _ hled rfl (fun _ hm => .inl hm)
      (fun q hq => .inl ⟨q, hpasses q hq, rfl⟩) (h.kept (hcache ▸ .refl _)) fun k pg => by rw [hcache]

/-! ### Fills -/

/-- The placeholders of a fill: no cached page changes. -/
theorem Inv.beginFill (key pgoff want : Nat) :
    Inv { s with world := { s.world with
      cache := (s.world.cache.beginFill key pgoff want).2 } } := by
  obtain ⟨-, hkept, hspec⟩ := Cache.beginFill_spec s.world.cache key pgoff want
  replace hkept := h.kept hkept
  have hled := h.ledger.beginFill key pgoff want
  rcases hr : (s.world.cache.beginFill key pgoff want).1 with _ | ⟨token, n⟩
  · rw [hr] at hspec
    exact h.same s.maps s.passes hled rfl (fun _ hm => .inl hm) (fun p hp => .inl ⟨p, hp, rfl⟩) hkept
      fun k pg => by rw [view, hspec, ← view]
  rw [hr] at hspec
  obtain ⟨-, -, hpage, habs⟩ := hspec
  refine h.keep s.maps s.passes hled rfl (fun _ hm => .inl hm) (fun p hp => .inl ⟨p, hp, rfl⟩) hkept
    (fun k pg f d hv => ?_) fun k pg f d hv _ => ?_
  · rw [view] at hv
    rw [hpage] at hv
    split at hv
    · exact absurd hv (by simp [Page.placeholder, Page.view])
    · exact hv
  rw [view]
  rw [hpage, if_neg]
  · exact hv
  rintro ⟨rfl, h1, h2⟩
  -- a page that is filled was absent or a hole, so none that is cached goes
  rcases habs pg h1 h2 with ha | ha
  · rw [view, ha] at hv
    contradiction
  · exact absurd (ha.symm.trans hv) (by simp)

/-- The read and `end_fill`, over the placeholders of the fill. -/
theorem Inv.fill {key pgoff token : Nat} {frames : List Nat} (hnd : frames.Nodup)
    (h0 : 0 ∉ frames) (hlive : ∀ f ∈ frames, f ∉ s.world.frames.live)
    (hopen : ∀ pg, pgoff ≤ pg → pg < pgoff + frames.length →
      s.world.cache.view key pg = some (.filling token false)) :
    Inv (s.fill key pgoff token frames) := by
  -- The frames are nobody's yet.
  have hnew : ∀ f ∈ frames, s.world.cache.owns f + s.outside.count f = 0 := fun f hf =>
    Nat.eq_zero_of_not_pos ((h.ledger.live f).not.mp (hlive f hf))
  have hcached : ∀ k pg f d, s.world.cache.view k pg = some (.cached f d) → f ∉ frames := by
    intro k pg f d hv hm
    have := owns_pos hv
    have := hnew f hm
    omega
  set w : World := { s.world with
    frames := s.world.frames.allocAll frames
    mem := readFrames (s.files key) pgoff frames s.world.mem } with hwdef
  have hled : w.Ledger fun f => s.outside.count f + frames.count f :=
    (Frames.Tracks.allocAll frames h.ledger hnd hnew).congr fun f => (Nat.add_assoc _ _ _).symm
  set valid := min (frames.length * pageSize) ((s.files key).size - pgoff * pageSize)
  obtain ⟨h1, h2, hkept, h3, h4⟩ := endFill_spec hled h0 (fun f hf => by
    have := hnew f hf
    have := List.count_eq_one_of_mem hnd hf
    show s.world.cache.owns f + _ + _ = 1
    omega) key token pgoff valid
  -- A page cached now was cached, or is one of the fill's.
  have hfrom : ∀ k pg f d, (w.endFill key token pgoff frames valid).cache.view k pg =
      some (.cached f d) → s.world.cache.view k pg = some (.cached f d) ∨
        (f ∈ frames ∧ Holds w.mem f pg (s.files k)) := by
    intro k pg f d hv
    rw [h4] at hv
    split at hv
    · next hin =>
      rcases endView_cached hv with hs | ⟨-, hf⟩
      · exact .inl hs
      have hi : pg - pgoff < frames.length := by omega
      have hholds := readFrames_holds (s.files key) frames pgoff s.world.mem (pg - pgoff) hnd hi
      rw [Nat.add_sub_cancel' hin.2.1, ← hf] at hholds
      rw [List.getD_eq_getElem _ _ hi] at hf
      exact .inr ⟨hf ▸ List.getElem_mem _, hin.1 ▸ hholds⟩
    · exact .inl hv
  have hto : ∀ k pg f d, s.world.cache.view k pg = some (.cached f d) →
      (w.endFill key token pgoff frames valid).cache.view k pg = some (.cached f d) := by
    intro k pg f d hv
    rw [h4, if_neg]
    · exact hv
    · rintro ⟨rfl, hlo, hhi⟩
      exact absurd ((hopen pg hlo hhi).symm.trans hv) (by simp)
  refine ⟨h1, fun f => ?_, fun m hm => ?_, fun p hp => ?_, fun k pg f hv => ?_, fun f hf => ?_,
    fun k pg f d hv hf => ?_, h.kept hkept⟩
  · have hle := h3 f
    show (w.endFill key token pgoff frames valid).cache.owns f ≤ 1
    by_cases hf : f ∈ frames
    · have := hnew f hf
      have := List.count_eq_one_of_mem hnd hf
      have : w.cache.owns f = s.world.cache.owns f := rfl
      omega
    · rw [List.count_eq_zero.mpr hf] at hle
      exact hle.trans (h.one f)
  · obtain ⟨d, hd⟩ := h.maps m hm
    exact ⟨d, hto _ _ _ _ hd⟩
  · obtain ⟨d, hd⟩ := h.passes p hp
    exact ⟨d, hto _ _ _ _ hd⟩
  · rcases hfrom k pg f false hv with hs | ⟨hf, -⟩
    · exact h.clean k pg f hs
    -- A fresh frame: nobody has stored to it or mapped it.
    refine ⟨fun hun => ?_, fun m hm hmf => ?_⟩
    · obtain ⟨k', pg', hv'⟩ := h.unsaved f hun
      exact hcached _ _ _ _ hv' hf
    · obtain ⟨d, hd⟩ := h.maps m hm
      exact absurd hf (hcached _ _ _ _ (hmf ▸ hd))
  · obtain ⟨k, pg, hv⟩ := h.unsaved f hf
    exact ⟨k, pg, hto k pg f true hv⟩
  · intro off hoff hlt
    show (w.endFill key token pgoff frames valid).mem f off = _
    rw [h2]
    rcases hfrom k pg f d hv with hs | ⟨-, hholds⟩
    · rw [hwdef]
      dsimp only
      rw [readFrames_other _ frames _ _ (hcached k pg f d hs)]
      exact h.saved k pg f d hs hf off hoff hlt
    · exact hholds off hoff

theorem Inv.fillStep {key pgoff want : Nat} {frames : List Nat}
    (hs : s.step (.fill key pgoff want frames) = some s') : Inv s' := by
  have h' := h.beginFill key pgoff want
  have hspec := (Cache.beginFill_spec s.world.cache key pgoff want).2.2
  rw [Sys.step] at hs
  rcases hr : (s.world.cache.beginFill key pgoff want).1 with _ | ⟨token, n⟩
  · rw [hr] at hs
    cases hs
    exact h'
  · rw [hr] at hs hspec
    obtain ⟨hf, rfl⟩ := guard_eq_some hs
    obtain ⟨rfl, hnd, h0, hlive⟩ := hf
    refine h'.fill hnd h0 hlive fun pg hlo hhi => ?_
    rw [view]
    rw [hspec.2.2.1, if_pos ⟨rfl, hlo, hhi⟩]
    rfl

/-! ### Runs -/

/-- **One step** keeps the invariant. -/
theorem Inv.step {a : Action} (hkept : Kept s a)
    (hs : s.step a = some s') : Inv s' := by
  cases a with
  | learn key =>
    cases hs
    exact h.learn key
  | fill => exact h.fillStep hs
  | map => exact h.map hs
  | enable => exact h.enable hs
  | store m off v =>
    obtain ⟨hm, rfl⟩ := guard_eq_some hs
    exact h.store hm.1 hm.2.1 off v
  | unmap =>
    obtain ⟨hm, rfl⟩ := guard_eq_some hs
    exact h.unmap hm
  | take lo hi mapped max =>
    obtain ⟨hroom, rfl⟩ := guard_eq_some hs
    exact h.take hroom
  | copy p taken =>
    obtain ⟨hp, rfl⟩ := guard_eq_some hs
    exact h.copy hp.2.2 hp.1 taken
  | done p =>
    rw [Sys.step] at hs
    cases hres : p.result with
    | none => rw [hres] at hs; contradiction
    | some =>
      rw [hres] at hs
      obtain ⟨hp, rfl⟩ := guard_eq_some hs
      exact h.done hp hres hkept
  | reclaim want =>
    cases hs
    exact h.evicts (reclaimPages_evicts h.ledger want)
  | emergency busy want =>
    cases hs
    exact h.evicts (emergencyReclaim_evicts h.ledger busy want)
  | purge =>
    cases hs
    exact h.evicts (purge_evicts h.ledger)

/-- Eviction takes clean pages only. -/
theorem Inv.evicted {a : Action} (ha : a.evicts = true)
    (hs : s.step a = some s') {key pg f : Nat} {d : Bool}
    (hv : s.world.cache.view key pg = some (.cached f d))
    (hgone : s'.world.cache.view key pg ≠ some (.cached f d)) : d = false := by
  have hshed : ∀ w, Sheds (s.outside.count ·) s.world w →
      w.cache.view key pg ≠ some (.cached f d) → d = false := by
    intro w hw hne
    by_contra hd
    refine hne (((hw.2.2 key pg).keeps hv (.inr ?_)).trans hv)
    simpa using hd
  cases a with
  | reclaim want =>
    cases hs
    exact hshed _ (reclaimPages_evicts h.ledger want).sheds hgone
  | emergency busy want =>
    cases hs
    exact hshed _ (emergencyReclaim_evicts h.ledger busy want).sheds hgone
  | purge =>
    cases hs
    exact hshed _ (purge_evicts h.ledger).sheds hgone
  | _ => exact absurd ha (by simp [Action.evicts])

end

/-- **Write-back loses no store**, in every run in which no pass finishes with a
page that was stored to after the filesystem's copy and that nobody holds any
more: a cached page that is neither dirty nor writably mapped has the bytes the
filesystem has, and so has every page that eviction takes. -/
theorem clean_page_saved (h : Reachable Boot Kept Sys.step s) :
    (∀ key pg p, s.world.cache.page? key pg = some p → p.published = true →
      p.flags.dirty = false → (∀ m ∈ s.maps, m.phys = p.phys → m.writable = false) →
        Saved s key pg p.phys) ∧ ∀ a s', a.evicts = true → s.step a = some s' → ∀ key pg f d,
      s.world.cache.view key pg = some (.cached f d) →
      s'.world.cache.view key pg ≠ some (.cached f d) → Saved s key pg f := by
  have hinv : Inv s := h.invariant (fun _ hb => Inv.boot hb) fun _ _ _ hi hok hs => hi.step hok hs
  have hclean : ∀ key pg f, s.world.cache.view key pg = some (.cached f false) →
      Saved s key pg f := fun key pg f hv => hinv.saved key pg f false hv (hinv.clean _ _ _ hv).1
  refine ⟨fun key pg p hp hpub hd _ => hclean key pg p.phys ?_,
    fun a s' ha hs key pg f d hv hgone => hclean key pg f ?_⟩
  · rw [view, hp, Option.map_some, Page.view_cached.mpr ⟨hpub, rfl, hd⟩]
  · rw [hv, hinv.evicted ha hs hv hgone]

/-! ### Two runs -/

/-- Nothing cached; every file is the byte 7. -/
def bootSevens : Sys :=
  ⟨⟨.init, ⟨.empty, ∅, 0⟩, fun _ _ => 0⟩, fun _ => FileData.oneByte 7, [], [], ∅⟩

theorem boot_bootSevens : Boot bootSevens := ⟨rfl, rfl, rfl, rfl, rfl⟩

/-- The one page of file 1 in frame 4096, mapped, and in a pass. -/
def mapping (writable : Bool) : Mapping := ⟨1, 0, 4096, writable⟩
def pass (result : Option Bool) : Pass := ⟨⟨1, 0, 4096⟩, result⟩

/-- A mapper stores 8; the filesystem takes it. -/
def storeAndCopy : List Action :=
  [.learn 1, .fill 1 0 1 [4096], .map 1 0 false, .enable (mapping false),
    .store (mapping true) 0 8, .take 0 100 true 1, .copy (pass none) 4096]

instance (s : Sys) (a : Action) : Decidable (Kept s a) := by
  cases a <;> unfold Kept <;> infer_instance

/-- Page 0 of file 1, the number of mappings, the frame's first byte, the file's
first byte and size. -/
def firstPage (s : Sys) : Option (Page × Nat × Nat × Nat × Nat) :=
  (s.world.cache.page? 1 0).map fun p =>
    (p, s.maps.length, s.world.mem p.phys 0, (s.files 1).byte 0, (s.files 1).size)

/-- The clean page in frame 4096. -/
def cleanPage : Page := ⟨4096, 1, .uptodate, { ref := true, mapped := true }, nofun⟩

/-- The mapper lets go before the pass finishes: the page is clean and saved. -/
theorem clean_page_saved_after_pass :
    ∃ s, Reachable Boot Kept Sys.step s ∧ s.world.cache.page? 1 0 = some cleanPage ∧
      s.world.mem 4096 0 = 8 ∧ Saved s 1 0 4096 := by
  have hrun : (replay Kept Sys.step bootSevens
      (storeAndCopy ++ [.unmap (mapping true), .done (pass (some true))])).bind firstPage =
      some (cleanPage, 0, 8, 8, 1) := by decide +kernel
  obtain ⟨s, hs, hpage⟩ := Option.bind_eq_some_iff.mp hrun
  obtain ⟨p, hp, he⟩ := Option.map_eq_some_iff.mp hpage
  simp only [Prod.mk.injEq] at he
  obtain ⟨rfl, hmaps, hmem, -⟩ := he
  have hreach := (Reachable.start boot_bootSevens).replay hs
  refine ⟨s, hreach, hp, hmem, (clean_page_saved hreach).1 1 0 cleanPage hp (by decide) (by decide)
    fun m hm => ?_⟩
  rw [List.eq_nil_of_length_eq_zero hmaps] at hm
  exact absurd hm not_mem_nil

/-- **The lost store.** After the copy the mapper stores 9 and lets go; the pass
clears the dirty flag, the file has 8, and eviction drops the page. -/
theorem store_after_copy_lost : ∃ s, Reachable Boot (fun _ _ => True) Sys.step s ∧ s.maps = [] ∧
      (∃ p, s.world.cache.page? 1 0 = some p ∧ p.published = true ∧ p.flags.dirty = false ∧
        ¬Saved s 1 0 p.phys) ∧
      ∃ s', s.step (.reclaim 1) = some s' ∧ s'.world.cache.page? 1 0 = none := by
  -- the page is clean with the new byte in memory and the old one in the file
  have hrun : (replay (fun _ _ => True) Sys.step bootSevens (storeAndCopy ++
      [.store (mapping true) 0 9, .unmap (mapping true), .done (pass (some true))])).bind
      firstPage = some (cleanPage, 0, 9, 8, 1) := by decide +kernel
  -- and the next reclaim takes it
  have hevict : ((replay (fun _ _ => True) Sys.step bootSevens (storeAndCopy ++
      [.store (mapping true) 0 9, .unmap (mapping true), .done (pass (some true))])).bind
      fun s => (s.step (.reclaim 1)).map fun s' => s'.world.cache.page? 1 0) = some none := by
    decide +kernel
  obtain ⟨s, hs, hpage⟩ := Option.bind_eq_some_iff.mp hrun
  rw [hs, Option.bind_some] at hevict
  obtain ⟨s', hs', hgone⟩ := Option.map_eq_some_iff.mp hevict
  obtain ⟨p, hp, he⟩ := Option.map_eq_some_iff.mp hpage
  simp only [Prod.mk.injEq] at he
  obtain ⟨rfl, hmaps, hmem, hbyte, hsize⟩ := he
  refine ⟨s, (Reachable.start boot_bootSevens).replay hs, List.eq_nil_of_length_eq_zero hmaps,
    ⟨cleanPage, hp, by decide, by decide, fun hsaved => ?_⟩, s', hs', hgone⟩
  have heq := hsaved 0 (by decide) (by rw [hsize]; decide)
  rw [hmem, Nat.zero_mul, hbyte] at heq
  exact absurd heq (by decide)

end Leandros.Mm.PageCache.WriteBack
