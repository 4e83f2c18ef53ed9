import Leandros.Lib.Machine
import Leandros.Mm.PageCache.File

/-!
# Leandros.Mm.PageCache.Coherence

**The cache agrees with the files.** The filesystem's content is the ground
truth. A fill runs as three steps (`begin_fill`, the read into fresh frames,
`end_fill` or `abort_fill`); writes, resizes, drops, evictions and references
are atomic steps between them, in any order and on any files.

* `Inv` — every cached page holds its file's bytes, and so does every frame a
  fill has read for a placeholder that is still its own and not stale.
* `Inv.step` — one step keeps it, provided `begin_fill` does not hand out a
  token that a fill in flight on the same file still has (`FreshToken`): the
  token is 32 bits wide and wraps.

Reference counts wrap too. Each reference to a frame is kept somewhere, in a page
table or in the pins of a request, and a step that would take one more than a `u32`
counts is not a step here (`Frames.hasRoom`).
-/

namespace Leandros.Mm.PageCache.Coherence

open Function (update update_of_ne update_self)
open World
open Cache
open Frames
open List (count_append count_eq_zero count_pos_iff flatMap_cons mem_cons mem_of_mem_erase
  not_mem_nil)

/-- A fill in flight: `frames` and `valid` are there once its read is done. -/
structure Fill where
  key : Nat
  token : Nat
  pgoff : Nat
  n : Nat
  frames : List Nat
  valid : Nat
  deriving DecidableEq

/-- The cache, the files, the fills in flight and the references taken by reads
and read-only mappings. -/
structure Sys where
  world : World
  files : Nat → FileData
  fills : List Fill
  pins : List Nat

/-- The frames held outside the index. -/
def Sys.outside (s : Sys) : List Nat := s.pins ++ s.fills.flatMap (·.frames)

inductive Action
  /-- `set_size`, with the size the filesystem has. -/
  | learn (key : Nat)
  | begin (key pgoff want : Nat)
  /-- Only `n` frames could be allocated: the tail of the fill is aborted. -/
  | shorten (F : Fill) (n : Nat)
  /-- The read of the run, into frames fresh from the allocator. -/
  | read (F : Fill) (frames : List Nat)
  | finish (F : Fill)
  | abort (F : Fill)
  | write (key pos : Nat) (data : List Nat)
  | resize (key size : Nat)
  /-- `drop_file`; the key may then stand for another file. -/
  | drop (key : Nat) (content : FileData)
  | reclaim (want : Nat)
  | emergency (busy : Nat → Bool) (want : Nat)
  | purge
  | pin (key pgoff n : Nat)
  | lookup (key pgoff : Nat) (exec : Bool)
  | unpin (f : Nat)
  | keyGet (key : Nat)
  | keyPut (readCache : Bool) (key : Nat)

namespace Sys

/-- The end of a write request: the file, then the cache. -/
def write (s : Sys) (key pos : Nat) (data : List Nat) : Sys :=
  let file := s.files key
  { s with
    world := s.world.writeThrough key pos data file.size (file.write pos data).size
    files := update s.files key (file.write pos data) }

/-- `handle_ftruncate`. -/
def resize (s : Sys) (key size : Nat) : Sys :=
  let file := s.files key
  let w := if size < file.size then s.world.truncate key size
    else
      let w := s.world.extend key file.size size
      { w with cache := w.cache.noteSize key size }
  { s with world := w, files := update s.files key (file.resize size) }

/-- One step; `none` if the fill or reference is not there, the frames given are not
the allocator's to give, or a reference count would wrap. -/
def step (s : Sys) : Action → Option Sys
  | .learn key => some { s with world :=
      { s.world with cache := s.world.cache.setSize key (s.files key).size } }
  | .begin key pgoff want =>
    let r := s.world.cache.beginFill key pgoff want
    some { s with
      world := { s.world with cache := r.2 }
      fills := match r.1 with
        | some (token, n) => ⟨key, token, pgoff, n, [], 0⟩ :: s.fills
        | none => s.fills }
  | .shorten F n =>
    if F ∈ s.fills ∧ F.frames = [] ∧ n < F.n then
      some { s with
        world := { s.world with
          cache := s.world.cache.abortFill F.key F.token (F.pgoff + n) (F.n - n) }
        fills := { F with n := n } :: s.fills.erase F }
    else none
  | .read F frames =>
    if F ∈ s.fills ∧ F.frames = [] ∧ frames.length = F.n ∧ frames.Nodup ∧ 0 ∉ frames ∧
        ∀ f ∈ frames, f ∉ s.world.frames.live then
      let file := s.files F.key
      some { s with
        world := { s.world with
          frames := s.world.frames.allocAll frames
          mem := readFrames file F.pgoff frames s.world.mem }
        fills := { F with
          frames := frames
          valid := min (F.n * pageSize) (file.size - F.pgoff * pageSize) } :: s.fills.erase F }
    else none
  | .finish F =>
    if F ∈ s.fills ∧ F.frames ≠ [] then
      some { s with
        world := s.world.endFill F.key F.token F.pgoff F.frames F.valid
        fills := s.fills.erase F }
    else none
  | .abort F =>
    if F ∈ s.fills then
      some { s with
        world := { s.world with
          cache := s.world.cache.abortFill F.key F.token F.pgoff F.n
          frames := s.world.frames.freeAll F.frames }
        fills := s.fills.erase F }
    else none
  | .write key pos data =>
    -- for as long as it copies, a write has a reference on each page it writes
    if s.world.frames.hasRoom 1 then some (s.write key pos data) else none
  | .resize key size => some (s.resize key size)
  | .drop key content =>
    if key = 0 then none
    else some { s with
      world := s.world.dropFile key
      files := update s.files key content }
  | .reclaim want => some { s with world := (s.world.reclaimPages want).1 }
  | .emergency busy want => some { s with world := (s.world.emergencyReclaim busy want).1 }
  | .purge => some { s with world := s.world.purge }
  | .pin key pgoff n =>
    let r := s.world.pinRun key pgoff n
    if s.world.frames.hasRoom r.2.1.length then
      some { s with world := r.2.2, pins := s.pins ++ r.2.1 }
    else none
  | .lookup key pgoff exec =>
    if s.world.frames.hasRoom 1 then
      match s.world.lookup key pgoff exec with
      | (some f, w) => some { s with world := w, pins := f :: s.pins }
      | (none, w) => some { s with world := w }
    else none
  | .unpin f =>
    if f ∈ s.pins then some { s with world := s.world.unpin [f], pins := s.pins.erase f }
    else none
  | .keyGet key => some { s with world := { s.world with cache := s.world.cache.keyGet key } }
  | .keyPut readCache key => some { s with world := s.world.keyPut readCache key }

end Sys

/-- At boot: an empty cache, no frame handed out, any files and any bytes. -/
def Boot (s : Sys) : Prop :=
  s.world.cache = .init ∧ s.world.frames = ⟨.empty, ∅, 0⟩ ∧ s.fills = [] ∧ s.pins = []

/-- `begin_fill` does not reuse the token of a fill in flight on the file. -/
def FreshToken (s : Sys) : Action → Prop
  | .begin key _ _ => ∀ F ∈ s.fills, F.key = key → F.token ≠ s.world.cache.nextToken
  | _ => True

/-! ### The invariant -/

/-- What a fill in flight knows: its frames are its own, and hold the file's
current bytes for every placeholder that it would publish. -/
structure FillOk (s : Sys) (F : Fill) : Prop where
  zero : 0 ∉ F.frames
  alone : ∀ f ∈ F.frames, s.world.cache.owns f = 0 ∧ s.outside.count f = 1
  holds : ∀ i, i < F.frames.length →
    s.world.cache.view F.key (F.pgoff + i) = some (.filling F.token false) →
      Holds s.world.mem (F.frames.getD i 0) (F.pgoff + i) (s.files F.key)

structure Inv (s : Sys) : Prop where
  ledger : s.world.Ledger (s.outside.count ·)
  one : ∀ f, s.world.cache.owns f ≤ 1
  cached : ∀ k pg f d, s.world.cache.view k pg = some (.cached f d) →
    Holds s.world.mem f pg (s.files k)
  fills : ∀ F ∈ s.fills, FillOk s F

variable {s : Sys}

theorem Inv.boot (h : Boot s) : Inv s := by
  obtain ⟨hc, hf, hfills, hpins⟩ := h
  have hview : ∀ k pg, s.world.cache.view k pg = none := fun k pg => by rw [hc]; rfl
  have hown : ∀ f, s.world.cache.owns f = 0 := fun f => by rw [hc]; rfl
  refine ⟨?_, fun f => by rw [hown]; omega, fun k pg f d hv => ?_, fun F hF => ?_⟩
  · rw [Ledger, hf]
    refine ⟨fun f => ?_, fun f => ?_, rfl⟩
    · simp [hown, Sys.outside, hfills, hpins]
    · simp [hown, Sys.outside, hfills, hpins]
  · rw [hview] at hv
    contradiction
  · rw [hfills] at hF
    exact absurd hF not_mem_nil

variable {F : Fill} {w : World} {f key : Nat} {s' : Sys}

/-- A frame of a fill is no cached page's. -/
theorem FillOk.not_cached (h : FillOk s F) {i k pg : Nat} {d : Bool}
    (hi : i < F.frames.length) : s.world.cache.view k pg ≠ some (.cached (F.frames.getD i 0) d) := by
  intro hv
  have hmem : F.frames.getD i 0 ∈ F.frames := by
    rw [List.getD_eq_getElem _ _ hi]
    exact List.getElem_mem _
  have := owns_pos hv
  have := (h.alone _ hmem).1
  omega

section

variable (h : Inv s)
include h

section

-- a step that starts no fill and ends none
variable (pins : List Nat) (hl : w.Ledger ((pins ++ s.fills.flatMap (·.frames)).count ·))
  (hp : ∀ F ∈ s.fills, ∀ f ∈ F.frames, pins.count f ≤ s.pins.count f)
include hl hp

/-- Cached pages and live placeholders were there before, and what they hold is right. -/
theorem Inv.change {files : Nat → FileData}
    (hc : ∀ k pg f d, w.cache.view k pg = some (.cached f d) →
      Holds w.mem f pg (files k) ∧ ∃ d', s.world.cache.view k pg = some (.cached f d'))
    (hf : ∀ F ∈ s.fills, ∀ i, i < F.frames.length →
      w.cache.view F.key (F.pgoff + i) = some (.filling F.token false) →
        Holds w.mem (F.frames.getD i 0) (F.pgoff + i) (files F.key)) :
    Inv { s with world := w, files := files, pins := pins } := by
  -- no page comes in, so a frame has no more owners than before
  have hown : ∀ f, w.cache.owns f ≤ s.world.cache.owns f :=
    owns_mono fun k pg f d hv => (hc k pg f d hv).2
  refine ⟨hl, fun f => (hown f).trans (h.one f), fun k pg f d hv => (hc k pg f d hv).1,
    fun F hF => ?_⟩
  have hok := h.fills F hF
  refine ⟨hok.zero, fun f hfm => ?_, hf F hF⟩
  obtain ⟨h0, h1⟩ := hok.alone f hfm
  refine ⟨Nat.le_zero.mp (h0 ▸ hown f), ?_⟩
  have hpin := hp F hF f hfm
  have hpos : 0 < (s.fills.flatMap (·.frames)).count f :=
    count_pos_iff.mpr (List.mem_flatMap.mpr ⟨F, hF, hfm⟩)
  show (pins ++ s.fills.flatMap (·.frames)).count f = 1
  rw [Sys.outside, count_append] at h1
  rw [count_append]
  omega

/-- No byte and no file changes. -/
theorem Inv.shrink (hm : w.mem = s.world.mem)
    (hc : ∀ k pg f d, w.cache.view k pg = some (.cached f d) →
      ∃ d', s.world.cache.view k pg = some (.cached f d'))
    (hf : ∀ k pg t, w.cache.view k pg = some (.filling t false) →
      s.world.cache.view k pg = some (.filling t false)) :
    Inv { s with world := w, pins := pins } := by
  refine h.change pins hl hp (fun k pg f d hv => ?_) fun F hF i hi hv => ?_
  · obtain ⟨d', hd'⟩ := hc k pg f d hv
    exact ⟨(h.cached k pg f d' hd').congr (by rw [hm]), d', hd'⟩
  · exact ((h.fills F hF).holds i hi (hf _ _ _ hv)).congr (by rw [hm])

/-- No view changes. -/
theorem Inv.same (hm : w.mem = s.world.mem)
    (hv : ∀ k pg, w.cache.view k pg = s.world.cache.view k pg) :
    Inv { s with world := w, pins := pins } :=
  h.shrink pins hl hp hm (fun k pg _ d hd => ⟨d, (hv k pg).symm.trans hd⟩)
    fun k pg _ hd => (hv k pg).symm.trans hd

end

theorem Inv.sheds
    (hs : Sheds (s.outside.count ·) s.world w) : Inv { s with world := w } :=
  h.shrink s.pins hs.1 (fun _ _ _ _ => le_rfl) hs.2.1
    (fun k pg _ d hv => ⟨d, (hs.2.2 k pg).cached hv⟩) fun k pg _ hv => (hs.2.2 k pg).filling.mp hv

/-! ### Fills -/

omit h in
theorem outside_erase (hF : F ∈ s.fills) (f : Nat) : s.outside.count f =
      (s.pins ++ (s.fills.erase F).flatMap (·.frames)).count f + F.frames.count f := by
  have hperm := (List.perm_cons_erase hF).flatMap_right (·.frames)
  rw [Sys.outside, count_append, count_append, hperm.count_eq, flatMap_cons, count_append]
  omega

/-- Two fills in flight share no frame. -/
theorem Inv.disjoint {G : Fill} (hF : F ∈ s.fills) (hG : G ∈ s.fills.erase F)
    (hf : f ∈ G.frames) : f ∉ F.frames := by
  intro hfF
  have hone := ((h.fills F hF).alone f hfF).2
  rw [outside_erase hF, count_append] at hone
  have h1 : 0 < F.frames.count f := count_pos_iff.mpr hfF
  have h2 : 0 < ((s.fills.erase F).flatMap (·.frames)).count f :=
    count_pos_iff.mpr (List.mem_flatMap.mpr ⟨G, hG, hf⟩)
  omega

/-- A fill begins with frames of its own. -/
theorem Inv.begin {pgoff want : Nat} (hfresh : FreshToken s (.begin key pgoff want))
    (hs : s.step (.begin key pgoff want) = some s') : Inv s' := by
  cases hs
  have hspec := (beginFill_spec s.world.cache key pgoff want).2.2
  have hled := h.ledger.beginFill key pgoff want
  rcases hr : (s.world.cache.beginFill key pgoff want).1 with _ | ⟨token, n⟩
  · rw [hr] at hspec
    exact h.same s.pins hled (fun _ _ _ _ => le_rfl) rfl fun k pg => by rw [view, hspec, ← view]
  rw [hr] at hspec
  obtain ⟨htok, -, hpage, habs⟩ := hspec
  set c := (s.world.cache.beginFill key pgoff want).2
  have hview : ∀ k pg, c.view k pg = if k = key ∧ pgoff ≤ pg ∧ pg < pgoff + n then
      some (.filling token false) else s.world.cache.view k pg := by
    intro k pg
    rw [view, hpage]
    split <;> rfl
  have hc : ∀ k pg f d, c.view k pg = some (.cached f d) →
      s.world.cache.view k pg = some (.cached f d) := by
    intro k pg f d hv
    rw [hview] at hv
    split at hv
    · cases hv
    · exact hv
  have hown : ∀ f, c.owns f ≤ s.world.cache.owns f :=
    owns_mono fun k pg f d hv => ⟨d, hc k pg f d hv⟩
  refine ⟨hled, fun f => (hown f).trans (h.one f),
    fun k pg f d hv => h.cached k pg f d (hc k pg f d hv), fun F hF => ?_⟩
  rcases mem_cons.mp hF with rfl | hF
  · exact ⟨not_mem_nil, fun f hf => absurd hf not_mem_nil,
      fun i hi => absurd hi (Nat.not_lt_zero i)⟩
  have hok := h.fills F hF
  refine ⟨hok.zero, fun f hf => ⟨?_, (hok.alone f hf).2⟩, fun i hi hv => ?_⟩
  · have := hown f
    have := (hok.alone f hf).1
    show c.owns f = 0
    omega
  refine hok.holds i hi ?_
  have hv' : c.view F.key (F.pgoff + i) = some (.filling F.token false) := hv
  rw [hview] at hv'
  split at hv'
  · next hin =>
    -- A new placeholder carries a token no fill in flight has.
    simp only [Option.some.injEq, View.filling.injEq, and_true] at hv'
    exact absurd (hv'.symm.trans htok) (hfresh F hF hin.1)
  · exact hv'

theorem Inv.abortView (key token pgoff n : Nat) :
    Inv { s with world := { s.world with
      cache := s.world.cache.abortFill key token pgoff n } } := by
  have hback : ∀ k pg v, (s.world.cache.abortFill key token pgoff n).view k pg = some v →
      s.world.cache.view k pg = some v := by
    intro k pg v hv
    rw [view, abortFill_spec] at hv
    split at hv
    · contradiction
    · exact hv
  exact h.shrink s.pins (h.ledger.abortFill key token pgoff n) (fun _ _ _ _ => le_rfl) rfl
    (fun k pg _ d hv => ⟨d, hback k pg _ hv⟩) fun k pg _ hv => hback k pg _ hv

omit h in
theorem FillOk.congr (h : FillOk s F)
    (hc : s'.world.cache = s.world.cache) (hm : s'.world.mem = s.world.mem)
    (hfiles : s'.files = s.files) (ho : ∀ f ∈ F.frames, s'.outside.count f = s.outside.count f) :
    FillOk s' F := by
  refine ⟨h.zero, fun f hf => ?_, fun i hi hv => ?_⟩
  · rw [hc, ho f hf]
    exact h.alone f hf
  · rw [hc] at hv
    rw [hm, hfiles]
    exact h.holds i hi hv

/-- The frames of the other fills are held as before once a fill ends. -/
theorem Inv.outside_rest {G : Fill} (hF : F ∈ s.fills) (hG : G ∈ s.fills.erase F)
    (hf : f ∈ G.frames) :
    (s.pins ++ (s.fills.erase F).flatMap (·.frames)).count f = s.outside.count f := by
  have h0 : F.frames.count f = 0 := count_eq_zero.mpr (h.disjoint hF hG hf)
  have := outside_erase hF f
  omega

theorem Inv.shorten {n : Nat} (hs : s.step (.shorten F n) = some s') : Inv s' := by
  obtain ⟨hF, rfl⟩ := guard_eq_some hs
  have h' := h.abortView F.key F.token (F.pgoff + n) (F.n - n)
  have hout : ∀ f, (s.pins ++ ({ F with n := n } :: s.fills.erase F).flatMap
      (·.frames)).count f = s.outside.count f := by
    intro f
    have := outside_erase hF.1 f
    rw [hF.2.1]
    rw [hF.2.1] at this
    simpa using this.symm
  refine ⟨h'.ledger.congr rfl (fun _ _ => rfl) hout, h'.one, h'.cached, fun G hG => ?_⟩
  rcases mem_cons.mp hG with rfl | hG
  · exact ⟨by rw [hF.2.1]; exact not_mem_nil, fun f hf => absurd (hF.2.1 ▸ hf) not_mem_nil,
      fun i hi => absurd hi (by rw [hF.2.1]; exact Nat.not_lt_zero i)⟩
  · exact (h'.fills G (mem_of_mem_erase hG)).congr rfl rfl rfl fun f _ => hout f

theorem Inv.abort (hs : s.step (.abort F) = some s') : Inv s' := by
  obtain ⟨hF, rfl⟩ := guard_eq_some hs
  have h' := h.abortView F.key F.token F.pgoff F.n
  refine ⟨?_, h'.one, h'.cached, fun G hG => ?_⟩
  · refine Tracks.freeAll F.frames (Tracks.congr h'.ledger fun f => ?_)
      fun f hf => ?_
    · exact (Nat.add_assoc _ _ _).trans (congrArg _ (outside_erase hF f).symm)
    obtain ⟨h0, h1⟩ := (h'.fills F hF).alone f hf
    refine (Nat.add_assoc _ _ _).trans ?_
    rw [h0, Nat.zero_add]
    exact (outside_erase hF f).symm.trans h1
  · exact (h'.fills G (mem_of_mem_erase hG)).congr rfl rfl rfl
      fun f hf => h.outside_rest hF hG hf

/-- A fill reads the file as it is now; what changes later marks its pages. -/
theorem Inv.read {frames : List Nat}
    (hs : s.step (.read F frames) = some s') : Inv s' := by
  obtain ⟨hF, hs⟩ := Option.ite_none_right_eq_some.mp hs
  obtain ⟨hF, hnil, hlen, hnd, h0, hlive⟩ := hF
  cases hs
  -- The frames are nobody's yet.
  have hnew : ∀ f ∈ frames, s.world.cache.owns f + s.outside.count f = 0 := by
    intro f hf
    exact Nat.eq_zero_of_not_pos ((h.ledger.live f).not.mp (hlive f hf))
  have hout : ∀ f, (s.pins ++ (s.fills.erase F).flatMap (·.frames)).count f =
      s.outside.count f := by
    intro f
    rw [outside_erase hF, hnil]
    rfl
  have hout' : ∀ f, (s.pins ++ ({ F with
      frames := frames
      valid := min (F.n * pageSize) ((s.files F.key).size - F.pgoff * pageSize) } ::
        s.fills.erase F).flatMap (·.frames)).count f = s.outside.count f + frames.count f := by
    intro f
    rw [← hout, flatMap_cons, count_append, count_append, count_append]
    dsimp only
    omega
  have hother : ∀ f, s.world.cache.owns f + s.outside.count f ≠ 0 →
      readFrames (s.files F.key) F.pgoff frames s.world.mem f = s.world.mem f :=
    fun f hf => readFrames_other _ frames _ _ fun hm => hf (hnew f hm)
  refine ⟨?_, h.one, fun k pg f d hv => ?_, fun G hG => ?_⟩
  · refine (Tracks.allocAll frames h.ledger hnd hnew).congr fun f => ?_
    exact (congrArg _ (hout' f)).trans (Nat.add_assoc _ _ _).symm
  · refine (h.cached k pg f d hv).congr (hother f ?_)
    have hpos : 0 < s.world.cache.owns f := owns_pos hv
    omega
  rcases mem_cons.mp hG with rfl | hG
  · refine ⟨h0, fun f hf => ?_, fun i hi _ => ?_⟩
    · have := hnew f hf
      refine ⟨by show s.world.cache.owns f = 0; omega, (hout' f).trans ?_⟩
      rw [List.count_eq_one_of_mem hnd hf]
      omega
    · exact readFrames_holds _ frames _ _ i hnd hi
  have hok := h.fills G (mem_of_mem_erase hG)
  refine ⟨hok.zero, fun f hf => ?_, fun i hi hv => ?_⟩
  · obtain ⟨h1, h2⟩ := hok.alone f hf
    refine ⟨h1, (hout' f).trans ?_⟩
    rw [h2, count_eq_zero.mpr fun hm => by have := hnew f hm; omega]
  · refine (hok.holds i hi hv).congr (hother _ ?_)
    have hmem : G.frames.getD i 0 ∈ G.frames := by
      rw [List.getD_eq_getElem _ _ hi]
      exact List.getElem_mem _
    have := (hok.alone _ hmem).2
    omega

/-- The end of a fill puts the frames it read into the cache, except those that went stale. -/
theorem Inv.finish (hs : s.step (.finish F) = some s') : Inv s' := by
  obtain ⟨hF, hs⟩ := Option.ite_none_right_eq_some.mp hs
  obtain ⟨hF, -⟩ := hF
  cases hs
  have hok := h.fills F hF
  have hled : s.world.Ledger fun f => (s.pins ++ (s.fills.erase F).flatMap (·.frames)).count f +
      F.frames.count f := h.ledger.congr rfl (fun _ _ => rfl) fun f => (outside_erase hF f).symm
  obtain ⟨h1, h2, -, h3, h4⟩ := endFill_spec hled hok.zero (fun f hf => by
    obtain ⟨ho, hc⟩ := hok.alone f hf
    rw [outside_erase hF] at hc
    omega) F.key F.token F.pgoff F.valid
  have hcount : ∀ f, F.frames.count f + s.world.cache.owns f ≤ 1 := by
    intro f
    by_cases hf : f ∈ F.frames
    · obtain ⟨ho, hc⟩ := hok.alone f hf
      rw [outside_erase hF] at hc
      omega
    · rw [count_eq_zero.mpr hf]
      have := h.one f
      omega
  refine ⟨h1, fun f => ?_, fun k pg f d hv => ?_, fun G hG => ?_⟩
  · have := hcount f
    have := h3 f
    show (s.world.endFill ..).cache.owns f ≤ 1
    omega
  · rw [h2]
    have hv' : (s.world.endFill F.key F.token F.pgoff F.frames F.valid).cache.view k pg =
        some (.cached f d) := hv
    rw [h4] at hv'
    by_cases hin : k = F.key ∧ F.pgoff ≤ pg ∧ pg < F.pgoff + F.frames.length
    · rw [if_pos hin] at hv'
      rcases endView_cached hv' with hold | ⟨hopen, rfl⟩
      · exact h.cached k pg f d hold
      -- Published now: its placeholder was this fill's, and not stale.
      rw [hin.1] at hopen ⊢
      have := hok.holds (pg - F.pgoff) (by omega)
      rw [Nat.add_sub_cancel' hin.2.1] at this
      exact this hopen
    · rw [if_neg hin] at hv'
      exact h.cached k pg f d hv'
  · have hG' := h.fills G (mem_of_mem_erase hG)
    refine ⟨hG'.zero, fun f hf => ⟨?_, ?_⟩, fun i hi hv => ?_⟩
    · have hz := count_eq_zero.mpr (h.disjoint hF hG hf)
      have := h3 f
      have := (hG'.alone f hf).1
      show (s.world.endFill ..).cache.owns f = 0
      omega
    · exact (h.outside_rest hF hG hf).trans (hG'.alone f hf).2
    rw [h2]
    refine hG'.holds i hi ?_
    have hv' : (s.world.endFill F.key F.token F.pgoff F.frames F.valid).cache.view G.key
        (G.pgoff + i) = some (.filling G.token false) := hv
    rw [h4] at hv'
    split at hv'
    · exact endView_filling hv'
    · exact hv'

/-! ### Requests that change a file -/

/-- A frame of one file's cached page is in no page of another. -/
theorem Inv.other_file {k pg : Nat} {d : Bool}
    (hv : s.world.cache.view k pg = some (.cached f d)) (hk : k ≠ key) (pg' : Nat) (d' : Bool) :
    s.world.cache.view key pg' ≠ some (.cached f d') :=
  fun hv' => hk (owns_unique (h.one f) hv' hv).1

/-- A write through the cache changes file and pages alike. -/
theorem Inv.write (hroom : s.world.frames.hasRoom 1 = true) (key pos : Nat) (data : List Nat) :
    Inv (s.write key pos data) := by
  have hw := writeThrough_spec h.ledger h.one (h.ledger.room hroom) key pos data
    (s.files key).size ((s.files key).write pos data).size
  refine h.change s.pins hw.ledger (fun _ _ _ _ => le_rfl) (fun k pg f d hv => ?_)
    fun F hF i hi hv => ?_
  · have hv' := (hw.doomed k pg).cached.mp hv
    refine ⟨?_, d, hv'⟩
    by_cases hk : k = key
    · rw [hk, update_self]
      exact writeThrough_holds hw (hk ▸ hv') (hk ▸ h.cached k pg f d hv')
    · rw [update_of_ne hk]
      exact (h.cached k pg f d hv').congr (hw.other f (h.other_file hv' hk))
  · have hok := h.fills F hF
    have hv' := (hw.doomed F.key (F.pgoff + i)).fresh hv
    have hold := (hok.holds i hi hv').congr (hw.other _ fun pg d => hok.not_cached hi)
    by_cases hk : F.key = key
    · rw [hk, update_self]
      intro off hoff
      rw [hold off hoff, hk]
      refine (if_neg fun hin => ?_).symm
      -- A written page's placeholder would be stale now.
      have := hw.stale (by omega) (F.pgoff + i) F.token false (hk ▸ hv')
        (by unfold pageSize at *; omega) (by unfold pageSize at *; omega)
      rw [hk, this] at hv
      simp at hv
    · rw [update_of_ne hk]
      exact hold

/-- A shrinking file takes its pages past the end with it. -/
theorem Inv.truncate (key size : Nat) :
    Inv { s with world := s.world.truncate key size
                 files := update s.files key ((s.files key).resize size) } := by
  obtain ⟨hled, hview, hmem⟩ := truncate_spec h.ledger key size
  refine h.change s.pins hled (fun _ _ _ _ => le_rfl) (fun k pg f d hv => ?_)
    fun F hF i hi hv => ?_
  · -- a cached page: of the file that changes its size, or of another one
    by_cases hk : k = key
    · have hv' := hv
      rw [hview, if_pos hk] at hv'
      have hold := (truncView_cached hv').1
      rw [hk, update_self]
      rw [hk] at hv hold
      exact ⟨truncate_holds h.ledger h.one hv (h.cached key pg f d hold), d, hold⟩
    · have hv' := hv
      rw [hview, if_neg hk] at hv'
      rw [update_of_ne hk]
      exact ⟨(h.cached k pg f d hv').congr
        (truncate_mem_other h.ledger key size (h.other_file hv' hk)), d, hv'⟩
  · -- a page that is being filled: its frame is in no cache, so its bytes are untouched
    have hok := h.fills F hF
    have hother := truncate_mem_other h.ledger key size fun pg d => hok.not_cached hi
    rw [hview] at hv
    by_cases hk : F.key = key
    · rw [if_pos hk] at hv
      obtain ⟨hopen, hkept, hbelow⟩ := truncView_filling hv
      intro off hoff
      rw [hk, update_self, FileData.resize_below _ hkept hbelow hoff, hother, ← hk]
      exact hok.holds i hi hopen off hoff
    · rw [if_neg hk] at hv
      rw [update_of_ne hk]
      exact (hok.holds i hi hv).congr hother

/-- A growing file, with zeroes where it had nothing. -/
theorem Inv.grow {size : Nat} (hsize : (s.files key).size ≤ size) :
    let w := s.world.extend key (s.files key).size size
    Inv { s with world := { w with cache := w.cache.noteSize key size }
                 files := update s.files key ((s.files key).resize size) } := by
  intro w
  have hled : w.Ledger (s.outside.count ·) := (extend_spec h.ledger ..).1
  have hview : ∀ k pg, (w.cache.noteSize key size).view k pg = w.cache.view k pg := fun k pg => by
    rw [view_noteSize]
  -- growing zeroes the tail of the last page, and a fill of it is given up
  have hdoom : ∀ k pg, Doomed (s.world.cache.view k pg) (w.cache.view k pg) :=
    extend_doomed h.ledger _ _ _
  refine h.change s.pins (hled.noteSize key size) (fun _ _ _ _ => le_rfl) (fun k pg f d hv => ?_)
    fun F hF i hi hv => ?_
  · rw [hview] at hv
    have hv' := (hdoom k pg).cached.mp hv
    refine ⟨?_, d, hv'⟩
    by_cases hk : k = key
    · rw [hk, update_self]
      rw [hk] at hv'
      exact extend_holds h.ledger h.one hsize hv' (h.cached key pg f d hv')
    · rw [update_of_ne hk]
      exact (h.cached k pg f d hv').congr
        (extend_mem_other h.ledger key _ size (h.other_file hv' hk))
  · rw [hview] at hv
    have hok := h.fills F hF
    have hold := (hok.holds i hi ((hdoom _ _).fresh hv)).congr
      (extend_mem_other h.ledger key (s.files key).size size fun pg d => hok.not_cached hi)
    by_cases hk : F.key = key
    · intro off hoff
      rw [hk, update_self, FileData.resize_byte _ hsize, ← hk]
      exact hold off hoff
    · rw [update_of_ne hk]
      exact hold

theorem Inv.resize (key size : Nat) : Inv (s.resize key size) := by
  rw [Sys.resize]
  by_cases hlt : size < (s.files key).size
  · rw [if_pos hlt]
    exact h.truncate key size
  · rw [if_neg hlt]
    exact h.grow (by omega)

theorem Inv.drop (hkey : key ≠ 0) (content : FileData) :
    Inv { s with world := s.world.dropFile key
                 files := update s.files key content } := by
  obtain ⟨hview, hmem, hled⟩ := dropFile_spec h.ledger hkey
  have hback : ∀ k pg v, (s.world.dropFile key).cache.view k pg = some v →
      k ≠ key ∧ s.world.cache.view k pg = some v := by
    intro k pg v hv
    rw [hview] at hv
    obtain ⟨hk, hv⟩ := Option.ite_none_left_eq_some.mp hv
    exact ⟨hk, hv⟩
  refine h.change s.pins hled (fun _ _ _ _ => le_rfl) (fun k pg f d hv => ?_)
    fun F hF i hi hv => ?_
  · obtain ⟨hk, hv'⟩ := hback k pg _ hv
    rw [update_of_ne hk]
    exact ⟨(h.cached k pg f d hv').congr (by rw [hmem]), d, hv'⟩
  · obtain ⟨hk, hv'⟩ := hback _ _ _ hv
    rw [update_of_ne hk]
    exact ((h.fills F hF).holds i hi hv').congr (by rw [hmem])

/-! ### References -/

/-- A cached frame is in no fill. -/
theorem Inv.cached_not_filling (hf : 0 < s.world.cache.owns f)
    (hF : F ∈ s.fills) : f ∉ F.frames := by
  intro hm
  have := ((h.fills F hF).alone f hm).1
  omega

theorem Inv.pin {key pgoff n : Nat}
    (hroom : s.world.frames.hasRoom (s.world.pinRun key pgoff n).2.1.length = true) :
    let r := s.world.pinRun key pgoff n
    Inv { s with world := r.2.2, pins := s.pins ++ r.2.1 } := by
  obtain ⟨hview, hmem, hpos, hled⟩ := pinRun_spec h.ledger key pgoff n (h.ledger.room hroom)
  refine h.same _ (hled.congr rfl (fun _ _ => rfl) fun f => ?_) (fun F hF f hf => ?_) hmem hview
  · rw [Sys.outside, count_append, count_append, count_append]
    omega
  · rw [count_append, count_eq_zero.mpr fun hm =>
      h.cached_not_filling (hpos f hm) hF hf, Nat.add_zero]

theorem Inv.lookup {pgoff : Nat} {exec : Bool}
    (hs : s.step (.lookup key pgoff exec) = some s') : Inv s' := by
  rw [Sys.step] at hs
  obtain ⟨hroom, hs⟩ := Option.ite_none_right_eq_some.mp hs
  rcases lookup_spec h.ledger (h.ledger.room hroom) key pgoff exec with
    hl | ⟨f, d, w, hl, hv, hview, hmem, hled, -⟩
  · rw [hl] at hs
    cases hs
    exact h
  rw [hl] at hs
  cases hs
  refine h.same _ (hled.congr rfl (fun _ _ => rfl) fun g => ?_) (fun F hF g hg => ?_) hmem hview
  · rw [List.cons_append, count_cons_apply, gain_apply]
    rfl
  have hne : g ≠ f := by
    rintro rfl
    exact h.cached_not_filling (owns_pos hv) hF hg
  rw [count_cons_apply, if_neg hne]

theorem Inv.unpin (hf : f ∈ s.pins) :
    Inv { s with world := s.world.unpin [f], pins := s.pins.erase f } := by
  have hcount : ∀ g, s.pins.count g = (s.pins.erase f).count g + [f].count g := by
    intro g
    rw [(List.perm_cons_erase hf).count_eq, List.count_cons, List.count_singleton]
  refine h.same _ (Ledger.unpin (h.ledger.congr rfl (fun _ _ => rfl) fun g => ?_))
    (fun F hF g hg => ?_) rfl fun _ _ => rfl
  · have := hcount g
    rw [Sys.outside, count_append, count_append]
    omega
  · have := hcount g
    omega

/-! ### Runs -/

/-- **One step** keeps the invariant. -/
theorem Inv.step {a : Action} (hfresh : FreshToken s a)
    (hs : s.step a = some s') : Inv s' := by
  cases a with
  | learn key =>
    cases hs
    exact h.same s.pins (h.ledger.setSize key _) (fun _ _ _ _ => le_rfl) rfl (view_setSize _ _ _)
  | begin => exact h.begin hfresh hs
  | shorten => exact h.shorten hs
  | read => exact h.read hs
  | finish => exact h.finish hs
  | abort => exact h.abort hs
  | write key pos data =>
    obtain ⟨hroom, rfl⟩ := guard_eq_some hs
    exact h.write hroom key pos data
  | resize key size =>
    cases hs
    exact h.resize key size
  | drop key content =>
    obtain ⟨hkey, hs⟩ := Option.ite_none_left_eq_some.mp hs
    cases hs
    exact h.drop hkey content
  | reclaim want =>
    cases hs
    exact h.sheds (reclaimPages_evicts h.ledger want).sheds
  | emergency busy want =>
    cases hs
    exact h.sheds (emergencyReclaim_evicts h.ledger busy want).sheds
  | purge =>
    cases hs
    exact h.sheds (purge_evicts h.ledger).sheds
  | pin key pgoff n =>
    obtain ⟨hroom, rfl⟩ := guard_eq_some hs
    exact h.pin hroom
  | lookup => exact h.lookup hs
  | unpin =>
    obtain ⟨hf, rfl⟩ := guard_eq_some hs
    exact h.unpin hf
  | keyGet key =>
    cases hs
    exact h.same s.pins (h.ledger.congr rfl (view_keyGet _ _) fun _ => rfl)
      (fun _ _ _ _ => le_rfl) rfl (view_keyGet _ _)
  | keyPut readCache key =>
    cases hs
    obtain ⟨hview, hmem, hled⟩ := keyPut_spec h.ledger readCache key
    -- the last user may take the file away, and nothing else goes
    have hback : ∀ k pg v, (s.world.keyPut readCache key).cache.view k pg = some v →
        s.world.cache.view k pg = some v := by
      intro k pg v hv
      rcases hview k pg with hs | hs
      · exact hs.symm.trans hv
      · exact absurd (hs.symm.trans hv) (by simp)
    exact h.shrink s.pins hled (fun _ _ _ _ => le_rfl) hmem
      (fun k pg _ d hv => ⟨d, hback k pg _ hv⟩) fun k pg _ hv => hback k pg _ hv

end

/-- **Frames are accounted for.** The frames handed out are those that a page, a fill or a reference
holds, their counts are exact, no free frame was ever freed, and no two pages share one. -/
theorem frames_accounted (h : Reachable Boot FreshToken Sys.step s) :
    s.world.frames.Tracks (fun f => s.world.cache.owns f + s.outside.count f) ∧
      ∀ key pg key' pg' f d d', s.world.cache.view key pg = some (.cached f d) →
        s.world.cache.view key' pg' = some (.cached f d') → key' = key ∧ pg' = pg := by
  have hinv : Inv s := h.invariant (fun _ hb => Inv.boot hb) fun _ _ _ hi hok hs => hi.step hok hs
  exact ⟨hinv.ledger, fun _ _ _ _ f _ _ hv hv' => Cache.owns_unique (hinv.one f) hv hv'⟩

/-! ### Two runs -/

/-- Nothing cached; every file is the byte 7. -/
def bootSevens : Sys := ⟨⟨.init, ⟨.empty, ∅, 0⟩, fun _ _ => 0⟩, fun _ => FileData.oneByte 7, [], []⟩

theorem boot_bootSevens : Boot bootSevens := ⟨rfl, rfl, rfl, rfl⟩

/-- The fill of page 0 of file 1 with token 1, before and after its read. -/
def firstFill (frames : List Nat) (valid : Nat) : Fill := ⟨1, 1, 0, 1, frames, valid⟩

/-- Page 0 of file 1: its state and frame, the frame's first byte, the file's. -/
def firstPage (s : Sys) : Option (PageState × Nat × Nat × Nat) :=
  (s.world.cache.page? 1 0).map fun p =>
    (p.state, p.phys, s.world.mem p.phys 0, (s.files 1).byte 0)

instance (s : Sys) (a : Action) : Decidable (FreshToken s a) := by
  cases a <;> unfold FreshToken <;> infer_instance

/-- The page of the fill is looked up: two hold its frame. -/
theorem frames_accounted_lookup : ∃ s, Reachable Boot FreshToken Sys.step s ∧
      s.world.frames.refs.get? 4096 = some 2 ∧
        s.world.frames.Tracks (fun f => s.world.cache.owns f + s.outside.count f) := by
  have hrun : ((replay FreshToken Sys.step bootSevens [.learn 1, .begin 1 0 1,
      .read (firstFill [] 0) [4096], .finish (firstFill [4096] 1), .lookup 1 0 false]).any fun s =>
        s.world.frames.refs.get? 4096 = some 2) = true := by decide +kernel
  obtain ⟨s, hr, hobs⟩ := Reachable.observe boot_bootSevens hrun
  exact ⟨s, hr, of_decide_eq_true hobs, (frames_accounted hr).1⟩

end Leandros.Mm.PageCache.Coherence
