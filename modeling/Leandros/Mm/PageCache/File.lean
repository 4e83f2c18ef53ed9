import Leandros.Mm.PageCache.Reclaim

/-!
# Leandros.Mm.PageCache.File

The file behind a cache key, as the filesystem server stores it, and the two
requests that change it: a **write** (`write_file_data`, then
`pc_write_through`) and a **resize** (`truncate_to`, then `truncate`, or
`extend` and `note_size`).

`Holds mem f pg file` says that frame `f` has page `pg` of the file, zero past
the end. A cached page that held the old content holds the new one after either
request (`writeThrough_holds`, `truncate_holds`, `extend_holds`).
-/

namespace Leandros.Mm.PageCache

open Function (update update_of_ne update_self)
open Cache

/-- A file's content: its size and bytes, zero past the end. -/
structure FileData where
  size : Nat
  byte : Nat → Nat
  zeros : ∀ i, size ≤ i → byte i = 0

namespace FileData

/-- `write_file_data`: the bytes go in, and the file grows to hold them. -/
def write (d : FileData) (pos : Nat) (data : List Nat) : FileData where
  size := max d.size (pos + data.length)
  byte i := if pos ≤ i ∧ i < pos + data.length then data.getD (i - pos) 0 else d.byte i
  zeros i hi := by
    rw [if_neg (by omega)]
    exact d.zeros i (by omega)

/-- `handle_ftruncate`. `truncate_to` frees the blocks from the first one past the
new end on; its sum wraps as the cache's does. A file that grows keeps its blocks. -/
def resize (d : FileData) (size : Nat) : FileData where
  size := size
  byte i :=
    if i < size ∧ (size < d.size → i / pageSize < World.firstGone size) then d.byte i else 0
  zeros i hi := if_neg (by omega)

/-- A file of one byte. -/
def oneByte (v : Nat) : FileData :=
  ⟨1, fun i => if i = 0 then v else 0, fun i hi => if_neg (by omega)⟩

/-- A page that stays, wholly below the new size, keeps its bytes. -/
theorem resize_below (d : FileData) {size pg off : Nat} (hkept : ¬World.firstGone size ≤ pg)
    (hpg : pg < size / pageSize) (hoff : off < pageSize) :
    (d.resize size).byte (pg * pageSize + off) = d.byte (pg * pageSize + off) := by
  have hmul := Nat.mul_le_mul_right pageSize (show pg + 1 ≤ size / pageSize from hpg)
  rw [Nat.add_one_mul] at hmul
  have := Nat.div_mul_le_self size pageSize
  have hdiv : (pg * pageSize + off) / pageSize = pg := by
    unfold pageSize at *
    omega
  exact if_pos ⟨by omega, fun _ => by omega⟩

/-- Growing changes no byte. -/
theorem resize_byte (d : FileData) {size : Nat} (h : d.size ≤ size) (i : Nat) :
    (d.resize size).byte i = d.byte i := by
  by_cases hi : i < size
  · exact if_pos ⟨hi, fun hlt => by omega⟩
  · exact (if_neg fun hin => hi hin.1).trans (d.zeros i (by omega)).symm

end FileData

/-- Frame `f` has page `pg` of the file. -/
def Holds (mem : Nat → Nat → Nat) (f pg : Nat) (file : FileData) : Prop :=
  ∀ off, off < pageSize → mem f off = file.byte (pg * pageSize + off)

variable {f : Nat}

theorem Holds.congr {mem mem' : Nat → Nat → Nat} {pg : Nat} {file : FileData}
    (h : Holds mem f pg file) (hm : mem' f = mem f) : Holds mem' f pg file := by
  intro off hoff
  rw [hm]
  exact h off hoff

/-- The bytes of the file from page `pg` on go into the frames; past the end of
the file they are zero. -/
def readFrames (file : FileData) : Nat → List Nat → (Nat → Nat → Nat) → Nat → Nat → Nat
  | _, [], mem => mem
  | pg, f :: fs, mem =>
    readFrames file (pg + 1) fs
      (update mem f fun off => file.byte (pg * pageSize + off))

theorem readFrames_other (file : FileData) (frames : List Nat) : ∀ (pg : Nat)
    (mem : Nat → Nat → Nat), f ∉ frames → readFrames file pg frames mem f = mem f := by
  induction frames with
  | nil => exact fun _ _ _ => rfl
  | cons g frames ih =>
    intro pg mem hf
    rw [readFrames, ih _ _ fun hm => hf (.tail _ hm)]
    exact update_of_ne (by rintro rfl; exact hf (.head _)) _ _

/-- The `i`-th frame has page `pg + i`. -/
theorem readFrames_holds (file : FileData) (frames : List Nat) : ∀ (pg : Nat)
    (mem : Nat → Nat → Nat) (i : Nat), frames.Nodup → i < frames.length →
      Holds (readFrames file pg frames mem) (frames.getD i 0) (pg + i) file := by
  induction frames with
  | nil => exact fun _ _ i _ hi => absurd hi (Nat.not_lt_zero i)
  | cons g frames ih =>
    intro pg mem i hnd hi off hoff
    obtain ⟨hg, hnd'⟩ := List.nodup_cons.mp hnd
    cases i with
    | zero =>
      rw [readFrames, List.getD_cons_zero, readFrames_other file frames _ _ hg,
        update_self, Nat.add_zero]
    | succ i =>
      rw [readFrames, List.getD_cons_succ]
      have := ih (pg + 1) (update mem g fun off => file.byte (pg * pageSize + off)) i
        hnd' (by simpa using hi) off hoff
      rw [this, Nat.add_right_comm, Nat.add_assoc]

/-- A view after fills of some pages were doomed: the same, or now stale. -/
def Doomed (v v' : Option View) : Prop :=
  v' = v ∨ ∃ t b, v = some (.filling t b) ∧ v' = some (.filling t true)

theorem Doomed.trans {v₁ v₂ v₃ : Option View} (h : Doomed v₁ v₂) (h' : Doomed v₂ v₃) :
    Doomed v₁ v₃ := by
  rcases h with rfl | ⟨t, b, h1, h2⟩
  · exact h'
  rcases h' with rfl | ⟨t', b', h1', h2'⟩
  · exact .inr ⟨t, b, h1, h2⟩
  · cases h2.symm.trans h1'
    exact .inr ⟨t, b, h1, h2'⟩

variable {v v' : Option View}

/-- Dooming fills touches no cached page. -/
theorem Doomed.cached (h : Doomed v v') {d : Bool} :
    v' = some (.cached f d) ↔ v = some (.cached f d) := by
  rcases h with rfl | ⟨t, b, h1, h2⟩
  · rfl
  · simp [h1, h2]

theorem Doomed.fresh (h : Doomed v v') {t : Nat}
    (hv : v' = some (.filling t false)) : v = some (.filling t false) := by
  rcases h with rfl | ⟨t', b, h1, h2⟩
  · exact hv
  · cases h2.symm.trans hv

theorem Doomed.filling (h : Doomed v v') {t : Nat} {b : Bool}
    (hv : v = some (.filling t b)) : v' = some (.filling t b) ∨ v' = some (.filling t true) := by
  rcases h with rfl | ⟨t', b', h1, h2⟩
  · exact .inl hv
  · cases hv.symm.trans h1
    exact .inr h2

namespace World

variable {w : World} {held : Nat → Nat}

/-! ### `extend` and `truncate` on the bytes -/

theorem extend_doomed (h : w.Ledger held) (key from' upto k pg : Nat) :
    Doomed (w.cache.view k pg) ((w.extend key from' upto).cache.view k pg) :=
  (extend_spec h key from' upto).2.1 k pg

theorem zero_mem_other {f g lo hi : Nat} (hne : g ≠ f) : (w.zero f lo hi).mem g = w.mem g :=
  update_of_ne hne _ _

theorem zero_mem_self (f lo hi off : Nat) :
    (w.zero f lo hi).mem f off = if lo ≤ off ∧ off < hi then 0 else w.mem f off := by
  rw [zero]
  dsimp only
  rw [update_self]

variable {d : Bool} {file : FileData}

section

variable (h : w.Ledger held)
include h

variable {f : Nat}

/-- A byte `extend` changes is past the old end of the file. -/
theorem extend_mem (hone : ∀ f, w.cache.owns f ≤ 1) (key from' upto : Nat)
    {pg : Nat} (hv : w.cache.view key pg = some (.cached f d)) (off : Nat) :
    (w.extend key from' upto).mem f off = w.mem f off ∨
      ((w.extend key from' upto).mem f off = 0 ∧ from' ≤ pg * pageSize + off) := by
  rcases (extend_spec h key from' upto).2.2.1 with hm | ⟨g, d', lo, hi, hg, hlo, hm⟩
  · exact .inl (by rw [hm])
  rw [hm]
  by_cases hfg : f = g
  · rw [hfg, zero_mem_self]
    split
    · next hin =>
      refine .inr ⟨rfl, ?_⟩
      -- The zeroed page is this one: a frame has one entry.
      have hpg : pg = from' / pageSize := (owns_unique (hone g) hg (hfg ▸ hv)).2
      rw [hpg]
      have := Nat.div_add_mod' from' pageSize
      omega
    · exact .inl rfl
  · exact .inl (by rw [zero_mem_other hfg])

/-- `extend` writes to no frame outside the file's pages. -/
theorem extend_mem_other (key from' upto : Nat)
    (hf : ∀ pg d, w.cache.view key pg ≠ some (.cached f d)) :
    (w.extend key from' upto).mem f = w.mem f := by
  rcases (extend_spec h key from' upto).2.2.1 with hm | ⟨g, d, lo, hi, hg, -, hm⟩
  · rw [hm]
  · rw [hm, zero_mem_other]
    rintro rfl
    exact hf _ _ hg

/-- Growing a file keeps its cached pages right. -/
theorem extend_holds (hone : ∀ f, w.cache.owns f ≤ 1)
    {key size pg : Nat} (hsize : file.size ≤ size)
    (hv : w.cache.view key pg = some (.cached f d)) (hh : Holds w.mem f pg file) :
    Holds (w.extend key file.size size).mem f pg (file.resize size) := by
  intro off hoff
  rw [FileData.resize_byte file hsize]
  rcases extend_mem h hone key file.size size hv off with hm | ⟨hm, hle⟩
  · rw [hm, hh off hoff]
  · rw [hm, file.zeros _ hle]

/-- `truncate` writes to no frame outside the file's pages. -/
theorem truncate_mem_other (key size : Nat)
    (hf : ∀ pg d, w.cache.view key pg ≠ some (.cached f d)) :
    (w.truncate key size).mem f = w.mem f := by
  rcases (truncate_spec h key size).2.2 with ⟨hm, -⟩ | ⟨g, d, hg, hm⟩
  · rw [hm]
  · rw [hm, zero_mem_other]
    rintro rfl
    exact hf _ _ hg

/-- Shrinking a file keeps the cached pages it leaves right. -/
theorem truncate_holds (hone : ∀ f, w.cache.owns f ≤ 1) {key size pg : Nat}
    (hv : (w.truncate key size).cache.view key pg = some (.cached f d))
    (hh : Holds w.mem f pg file) : Holds (w.truncate key size).mem f pg (file.resize size) := by
  obtain ⟨-, hview, hmem⟩ := truncate_spec h key size
  rw [hview, if_pos rfl] at hv
  obtain ⟨hold, hlt⟩ := truncView_cached hv
  have hdiv := Nat.div_add_mod' size pageSize
  have hle : pg ≤ size / pageSize := by
    have := firstGone_le size
    omega
  intro off hoff
  rcases Nat.lt_or_eq_of_le hle with hpg | hpg
  · -- A page wholly below the new end.
    rw [FileData.resize_below _ hlt hpg hoff, ← hh off hoff]
    rcases hmem with ⟨hm, -⟩ | ⟨g, d', hg, hm⟩
    · rw [hm]
    · rw [hm, zero_mem_other]
      rintro rfl
      exact absurd (owns_unique (hone f) hg hold).2 (by omega)
  · -- The last page: zeroed from the new end on.
    have hdiv' : (pg * pageSize + off) / pageSize = pg := by
      unfold pageSize at *
      omega
    show _ = if pg * pageSize + off < size ∧ (_ → (pg * pageSize + off) / pageSize < _) then _ else 0
    rw [hdiv']
    have hne : size % pageSize ≠ 0 := fun h0 => hlt (hpg ▸ firstGone_le_of_aligned h0)
    rcases hmem with ⟨-, hno⟩ | ⟨g, d', hg, hm⟩
    · exact absurd (hpg ▸ hv) (hno hne f d)
    cases hg.symm.trans (hpg ▸ hold)
    rw [hm, zero_mem_self, hh off hoff, hpg]
    by_cases hin : size / pageSize * pageSize + off < size
    · rw [if_neg (by omega), if_pos ⟨hin, fun _ => by omega⟩]
    · rw [if_pos ⟨by omega, hoff⟩, if_neg fun hc => hin hc.1]

end

/-! ### `pc_write_through` -/

/-- The copies of a write: each pinned frame gets its page's part. -/
theorem copyFold_spec (pos : Nat) (data : List Nat) (pins : List Pinned) : ∀ w : World,
    let w' := pins.foldl (fun w p => w.copyIn pos data p) w
    w'.cache = w.cache ∧ w'.frames = w.frames ∧
    (∀ f, (∀ q ∈ pins, q.phys ≠ f) → w'.mem f = w.mem f) ∧
    ∀ f pg, (∀ q ∈ pins, q.phys = f → q.pgoff = pg) → (∃ q ∈ pins, q.phys = f) →
      ∀ off, off < pageSize → w'.mem f off =
        if pos ≤ pg * pageSize + off ∧ pg * pageSize + off < pos + data.length then
          data.getD (pg * pageSize + off - pos) 0
        else w.mem f off := by
  induction pins with
  | nil => exact fun w => ⟨rfl, rfl, fun _ _ => rfl,
      fun f pg _ ⟨q, hq, _⟩ => absurd hq List.not_mem_nil⟩
  | cons p pins ih =>
    intro w
    obtain ⟨h1, h2, h3, h4⟩ := ih (w.copyIn pos data p)
    rw [List.foldl_cons]
    -- one page: the bytes that the data covers are new
    have hself : ∀ off, (w.copyIn pos data p).mem p.phys off =
        if pos ≤ p.pgoff * pageSize + off ∧ p.pgoff * pageSize + off < pos + data.length ∧
          off < pageSize then data.getD (p.pgoff * pageSize + off - pos) 0
        else w.mem p.phys off := by
      intro off
      rw [copyIn]
      dsimp only
      rw [update_self]
    have hother : ∀ f, f ≠ p.phys → (w.copyIn pos data p).mem f = w.mem f :=
      fun f hf => update_of_ne hf _ _
    refine ⟨h1, h2, fun f hf => ?_, fun f pg hpg hex off hoff => ?_⟩
    · rw [h3 f fun q hq => hf q (.tail _ hq), hother f (Ne.symm (hf p (.head _)))]
    have hfirst : (w.copyIn pos data p).mem f off =
        if p.phys = f ∧ (pos ≤ pg * pageSize + off ∧ pg * pageSize + off < pos + data.length)
        then data.getD (pg * pageSize + off - pos) 0 else w.mem f off := by
      by_cases hf : p.phys = f
      · have hp := hpg p (.head _) hf
        rw [← hf, hself, hp]
        refine if_congr ?_ rfl rfl
        constructor
        · exact fun hx => ⟨rfl, hx.1, hx.2.1⟩
        · exact fun hx => ⟨hx.2.1, hx.2.2, hoff⟩
      · rw [hother f (Ne.symm hf), if_neg fun hx => hf hx.1]
    -- a frame pinned twice is written twice with the same bytes
    by_cases hrest : ∃ q ∈ pins, q.phys = f
    · rw [h4 f pg (fun q hq => hpg q (.tail _ hq)) hrest off hoff, hfirst]
      by_cases hin : pos ≤ pg * pageSize + off ∧ pg * pageSize + off < pos + data.length
      · rw [if_pos hin, if_pos hin]
      · rw [if_neg hin, if_neg hin, if_neg fun hx => hin hx.2]
    · have hp : p.phys = f := by
        obtain ⟨q, hq, hqf⟩ := hex
        rcases List.mem_cons.mp hq with rfl | hq
        · exact hqf
        · exact absurd ⟨q, hq, hqf⟩ hrest
      rw [h3 f fun q hq hqf => hrest ⟨q, hq, hqf⟩, hfirst]
      exact if_congr (and_iff_right hp) rfl rfl

theorem sizesKept_wtPin (w : World) (key pos len : Nat) :
    SizesKept w.cache (w.wtPin key pos len).2.cache := by
  rw [wtPin]
  split
  · exact SizesKept.refl _
  · cases hf : w.cache.files.get? key with
    | none => exact SizesKept.refl _
    | some => exact sizesKept_setFile hf rfl rfl

/-- A write inside the file. -/
theorem sizesKept_writeThrough (w : World) (key pos : Nat) (data : List Nat) {size : Nat}
    (hpos : pos ≤ size) : SizesKept w.cache (w.writeThrough key pos data size size).cache := by
  rw [writeThrough]
  split
  · exact SizesKept.refl _
  dsimp only
  rw [if_neg (Nat.not_lt.mpr hpos), if_neg (not_not.mpr rfl)]
  have hfold := (copyFold_spec pos data (w.wtPin key pos data.length).1
    (w.wtPin key pos data.length).2).1
  refine (sizesKept_wtPin w key pos data.length).trans (sizesKept_files ?_)
  exact congrArg files hfold

/-- What a write through the cache does: the fills of its pages are doomed, its
bytes are in the cached pages, and a byte outside the write is as before, or
zero past the old end. -/
structure WritesThrough (held : Nat → Nat) (w w' : World) (key pos : Nat) (data : List Nat)
    (oldSize : Nat) : Prop where
  ledger : w'.Ledger held
  doomed : ∀ k pg, Doomed (w.cache.view k pg) (w'.cache.view k pg)
  stale : data.length ≠ 0 → ∀ pg t b, w.cache.view key pg = some (.filling t b) →
    pos / pageSize ≤ pg → pg ≤ (pos + data.length - 1) / pageSize →
      w'.cache.view key pg = some (.filling t true)
  other : ∀ f, (∀ pg d, w.cache.view key pg ≠ some (.cached f d)) → w'.mem f = w.mem f
  inside : ∀ pg f d, w.cache.view key pg = some (.cached f d) → ∀ off, off < pageSize →
    pos ≤ pg * pageSize + off → pg * pageSize + off < pos + data.length →
      w'.mem f off = data.getD (pg * pageSize + off - pos) 0
  outside : ∀ pg f d, w.cache.view key pg = some (.cached f d) → ∀ off, off < pageSize →
    ¬(pos ≤ pg * pageSize + off ∧ pg * pageSize + off < pos + data.length) →
      w'.mem f off = w.mem f off ∨ (w'.mem f off = 0 ∧ oldSize ≤ pg * pageSize + off)

variable {data : List Nat}

/-- The copy of a write whose end is already in the cache. -/
theorem copyThrough_spec (h : w.Ledger held) (hone : ∀ f, w.cache.owns f ≤ 1)
    (hroom : ∀ f, w.cache.owns f + held f + 1 < 2 ^ 32) (key pos : Nat) (hne : data.length ≠ 0)
    (oldSize : Nat) :
    let r := w.wtPin key pos data.length
    WritesThrough held w ((r.1.foldl (fun w p => w.copyIn pos data p) r.2).wtDone r.1) key pos
      data oldSize := by
  obtain ⟨pins, w', hpin, hmem, hview, hpins, hall, hled⟩ :=
    wtPin_spec h hone hroom key pos data.length
  rw [hpin]
  obtain ⟨h1, h2, h3, h4⟩ := copyFold_spec pos data pins w'
  set w₂ := pins.foldl (fun w p => w.copyIn pos data p) w'
  have hled₂ : w₂.Ledger fun f => held f + (pins.map (·.phys)).count f :=
    hled.congr h2 (fun k pg => by rw [h1]) fun _ => rfl
  have hdoom : ∀ k pg, (w₂.wtDone pins).cache.view k pg = w'.cache.view k pg := fun k pg => by
    rw [wtDone, h1]
  -- The pins of a frame are pins of its page.
  have hpage : ∀ pg f d, w.cache.view key pg = some (.cached f d) →
      ∀ q ∈ pins, q.phys = f → q.pgoff = pg := by
    rintro pg f d hv q hq rfl
    obtain ⟨-, -, -, d', hd'⟩ := hpins q hq
    exact (owns_unique (hone q.phys) hv hd').2
  refine ⟨hled₂.unpin, fun k pg => ?_, fun _ pg t b hv hlo hhi => ?_, fun f hf => ?_,
    fun pg f d hv off hoff hlo hhi => ?_, fun pg f d hv off hoff hout => ?_⟩
  · rw [hdoom, hview]
    rcases w.cache.view k pg with _ | ⟨t, b⟩ | ⟨f, d⟩ | _
    · exact .inl rfl
    · dsimp only
      cases decide (k = key ∧ data.length ≠ 0 ∧ pos / pageSize ≤ pg ∧
          pg ≤ (pos + data.length - 1) / pageSize) with
      | true => exact .inr ⟨t, b, rfl, by rw [Bool.or_true]⟩
      | false => exact .inl (by rw [Bool.or_false])
    · exact .inl rfl
    · exact .inl rfl
  · rw [hdoom, hview, hv]
    simp [hne, hlo, hhi]
  · rw [← hmem]
    refine h3 f fun q hq hqf => ?_
    obtain ⟨-, -, -, d, hd⟩ := hpins q hq
    exact hf _ d (hqf ▸ hd)
  · -- The page of a written byte is pinned.
    obtain ⟨q, hq, -, hqf⟩ := hall pg f d hne (by unfold pageSize at *; omega)
      (by unfold pageSize at *; omega) hv
    show w₂.mem f off = _
    rw [h4 f pg (hpage pg f d hv) ⟨q, hq, hqf⟩ off hoff, if_pos ⟨hlo, hhi⟩]
  · refine .inl ?_
    show w₂.mem f off = _
    by_cases hex : ∃ q ∈ pins, q.phys = f
    · rw [h4 f pg (hpage pg f d hv) hex off hoff, if_neg hout, hmem]
    · rw [h3 f fun q hq hqf => hex ⟨q, hq, hqf⟩, hmem]

/-- The size update at the end touches no page. -/
theorem WritesThrough.noteSize {w' : World} {key pos oldSize : Nat}
    (h : WritesThrough held w w' key pos data oldSize) (size : Nat) :
    WritesThrough held w { w' with cache := w'.cache.noteSize key size } key pos data oldSize :=
  { h with
    ledger := h.ledger.noteSize key size
    doomed := fun k pg => by
      rw [view_noteSize]
      exact h.doomed k pg
    stale := fun hx pg t b hv hlo hhi => by
      rw [view_noteSize]
      exact h.stale hx pg t b hv hlo hhi }

/-- **`pc_write_through`** does what a write asks for. -/
theorem writeThrough_spec (h : w.Ledger held) (hone : ∀ f, w.cache.owns f ≤ 1)
    (hroom : ∀ f, w.cache.owns f + held f + 1 < 2 ^ 32) (key pos : Nat) (data : List Nat)
    (oldSize newSize : Nat) :
    WritesThrough held w (w.writeThrough key pos data oldSize newSize) key pos data oldSize := by
  by_cases hne : data.length = 0
  · rw [writeThrough, if_pos hne]
    exact ⟨h, fun _ _ => .inl rfl, fun hx => absurd hne hx, fun _ _ => rfl,
      fun _ _ _ _ _ _ hlo hhi => by omega, fun _ _ _ _ _ _ _ => .inl rfl⟩
  -- The zeroing in front of the write.
  obtain ⟨w₁, hw₁, hled, hdoom, hmem, hother⟩ : ∃ w₁,
      w₁ = (if pos > oldSize then w.extend key oldSize pos else w) ∧ w₁.Ledger held ∧
      (∀ k pg, Doomed (w.cache.view k pg) (w₁.cache.view k pg)) ∧
      (∀ pg f d, w.cache.view key pg = some (.cached f d) → ∀ off, w₁.mem f off = w.mem f off ∨
        (w₁.mem f off = 0 ∧ oldSize ≤ pg * pageSize + off)) ∧
      ∀ f, (∀ pg d, w.cache.view key pg ≠ some (.cached f d)) → w₁.mem f = w.mem f := by
    by_cases hgap : pos > oldSize
    · exact ⟨_, (if_pos hgap).symm, (extend_spec h ..).1, extend_doomed h _ _ _,
        fun pg f d hv off => extend_mem h hone key oldSize pos hv off,
        fun f hf => extend_mem_other h key oldSize pos hf⟩
    · exact ⟨w, (if_neg hgap).symm, h, fun _ _ => .inl rfl, fun _ _ _ _ _ => .inl rfl,
        fun _ _ => rfl⟩
  have hfewer : ∀ f, w₁.cache.owns f ≤ w.cache.owns f := fun f =>
    owns_mono (fun k pg f d hv => ⟨d, (hdoom k pg).cached.mp hv⟩) f
  have h₃ := copyThrough_spec hled (fun f => (hfewer f).trans (hone f))
    (fun f => (Nat.add_le_add_right (Nat.add_le_add_right (hfewer f) _) _).trans_lt (hroom f))
    key pos hne oldSize
  rw [writeThrough, if_neg hne, ← hw₁]
  set w₃ := World.wtDone _ _
  have hwrites : WritesThrough held w w₃ key pos data oldSize := by
    refine ⟨h₃.ledger, fun k pg => (hdoom k pg).trans (h₃.doomed k pg),
      fun hx pg t b hv hlo hhi => ?_, fun f hf => ?_,
      fun pg f d hv => h₃.inside pg f d ((hdoom key pg).cached.mpr hv),
      fun pg f d hv off hoff hout => ?_⟩
    · rcases (hdoom key pg).filling hv with hs | hs
      · exact h₃.stale hx pg t b hs hlo hhi
      · exact h₃.stale hx pg t true hs hlo hhi
    · rw [h₃.other f fun pg d hv => hf pg d ((hdoom key pg).cached.mp hv), hother f hf]
    · rcases h₃.outside pg f d ((hdoom key pg).cached.mpr hv) off hoff hout with hs | hs
      · rw [hs]
        exact hmem pg f d hv off
      · exact .inr hs
  split
  · exact hwrites.noteSize newSize
  · exact hwrites

/-- A write keeps the file's cached pages right. -/
theorem writeThrough_holds {w' : World} {key pos pg f : Nat}
    (h : WritesThrough held w w' key pos data file.size)
    (hv : w.cache.view key pg = some (.cached f d)) (hh : Holds w.mem f pg file) :
    Holds w'.mem f pg (file.write pos data) := by
  intro off hoff
  by_cases hin : pos ≤ pg * pageSize + off ∧ pg * pageSize + off < pos + data.length
  · rw [h.inside pg f d hv off hoff hin.1 hin.2]
    exact (if_pos hin).symm
  refine Eq.trans ?_ (if_neg hin).symm
  rcases h.outside pg f d hv off hoff hin with hs | ⟨hs, hle⟩
  · rw [hs, hh off hoff]
  · rw [hs, file.zeros _ hle]

end World

end Leandros.Mm.PageCache
