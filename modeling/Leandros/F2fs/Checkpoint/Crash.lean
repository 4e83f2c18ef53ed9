import Leandros.F2fs.Checkpoint.Model

/-!
# Leandros.F2fs.Checkpoint.Crash

**What a crash leaves.** The device keeps what is on the medium and any part of the writes since
the last flush. The invariant names the checkpoint whose commit block is the newest on the medium
(`Base`) and says what each running checkpoint has brought to the device; `Core.Inv.crash` says
which checkpoint `mount` selects then, and that every block has what it captured unless a later
write has overwritten it. Each step lemma is about the part of a state that matters here
(`Core`).

Two checkpoints can run at once, one under the lock of the mount and one without it, but only one of
them is at work: the other one waits or has finished (`Core.Inv.alone`). So at most one commit block is
among the writes that a crash may tear apart.
-/

namespace Leandros.F2fs

open Function (update update_apply update_idem update_of_ne update_self)
open Disk

variable {D P : Type}

/-! ### Writes -/

namespace Image

/-- A block has what was last written to it, or what it had. -/
theorem writes_block (ws : List (Write D P)) (img : Image D P) (b : Nat) :
    (∃ d tag, .block b d tag ∈ ws ∧ (img.writes ws).blocks b = d ∧ (img.writes ws).tags b = tag) ∨
      ((img.writes ws).blocks b = img.blocks b ∧ (img.writes ws).tags b = img.tags b) := by
  induction ws generalizing img with
  | nil => exact .inr ⟨rfl, rfl⟩
  | cons w ws ih =>
    rcases ih (img.write w) with ⟨d, tag, hm, hd, ht⟩ | ⟨hd, ht⟩
    · exact .inl ⟨d, tag, .tail _ hm, hd, ht⟩
    change (img.writes (w :: ws)).tags b = _ at ht
    cases w with
    | pack => exact .inr ⟨hd, ht⟩
    | block b' d tag =>
      by_cases hb : b = b'
      · subst hb
        exact .inl ⟨d, tag, .head _, hd.trans (update_self _ _ _), ht.trans (update_self _ _ _)⟩
      · exact .inr ⟨hd.trans (update_of_ne hb _ _), ht.trans (update_of_ne hb _ _)⟩

/-- All commit blocks among the writes are the same one. -/
theorem writes_packs {ws : List (Write D P)} {p : Bool} {cp : CpInfo P}
    (hall : ∀ p' cp', .pack p' cp' ∈ ws → p' = p ∧ cp' = cp) (img : Image D P) :
    (img.writes ws).packs = img.packs ∧ .pack p cp ∉ ws ∨
      (img.writes ws).packs = update img.packs p cp ∧ .pack p cp ∈ ws := by
  induction ws generalizing img with
  | nil => exact .inl ⟨rfl, nofun⟩
  | cons w ws ih =>
    have ih := ih (fun p' cp' hm => hall p' cp' (.tail _ hm)) (img.write w)
    cases w with
    | block =>
      rcases ih with ⟨he, hn⟩ | ⟨he, hm⟩
      · refine .inl ⟨he, fun hm => ?_⟩
        rcases List.mem_cons.mp hm with h | h
        · contradiction
        · exact hn h
      · exact .inr ⟨he, .tail _ hm⟩
    | pack =>
      -- all records are one, so writing it again changes nothing
      obtain ⟨rfl, rfl⟩ := hall _ _ (.head _)
      refine .inr ⟨?_, .head _⟩
      rcases ih with ⟨he, -⟩ | ⟨he, -⟩
      · exact he
      · exact he.trans (update_idem _ _ _)

/-- `mount` selects a commit block that is newer than the other. -/
theorem cp_of_update {img : Image D P} {packs : Bool → CpInfo P} {p : Bool} {new : CpInfo P}
    (he : img.packs = update packs p new) (h : ∀ q, (packs q).ver < new.ver) : img.cp = new := by
  unfold cp active
  rw [he]
  cases p with
  | false => exact (if_pos (h true).le ▸ rfl)
  | true => exact (if_neg (h false).not_ge ▸ rfl)

theorem cp_congr {img img' : Image D P} (h : img'.packs = img.packs) : img'.cp = img.cp := by
  simp [cp, active, h]

end Image

namespace Disk

theorem now_write (k : Disk D P) (w : Write D P) (a : Answer) :
    (k.write w a).now = if a.lands then k.now.write w else k.now := by
  unfold write
  split
  · simp [now, Image.writes]
  · rfl

theorem medium_write (k : Disk D P) (w : Write D P) (a : Answer) :
    (k.write w a).medium = k.medium := by
  unfold write
  split <;> rfl

variable {k : Disk D P} {a : Answer}

theorem mem_pending_write {w w' : Write D P}
    (h : w' ∈ (k.write w a).pending) : w' ∈ k.pending ∨ w' = w := by
  unfold write at h
  split at h
  · rcases List.mem_append.mp h with h | h
    · exact .inl h
    · exact .inr (List.mem_singleton.mp h)
  · exact .inl h

theorem pending_subset_write {w w' : Write D P} (h : w' ∈ k.pending) :
    w' ∈ (k.write w a).pending := by
  unfold write
  split
  · exact List.mem_append_left _ h
  · exact h

/-- A write that lands, or is not of this block. -/
theorem blocks_write {b b' tag : Nat} {d : D} (h : b' ≠ b) :
    (k.write (.block b d tag) a).now.blocks b' = k.now.blocks b' ∧
      (k.write (.block b d tag) a).now.tags b' = k.now.tags b' := by
  rw [now_write]
  split
  · exact ⟨update_of_ne h _ _, update_of_ne h _ _⟩
  · exact ⟨rfl, rfl⟩

theorem blocks_write_self {b tag : Nat} {d : D} (h : a.lands = true) :
    (k.write (.block b d tag) a).now.blocks b = d ∧
      (k.write (.block b d tag) a).now.tags b = tag := by
  rw [now_write, if_pos h]
  exact ⟨update_self _ _ _, update_self _ _ _⟩

theorem blocks_write_pack (p : Bool) (cp : CpInfo P) (a : Answer) :
    (k.write (.pack p cp) a).now.blocks = k.now.blocks ∧
      (k.write (.pack p cp) a).now.tags = k.now.tags := by
  rw [now_write]
  split <;> exact ⟨rfl, rfl⟩

end Disk

theorem Answer.lands_of_ok {a : Answer} (h : a.ok = true) : a.lands = true := by
  cases a with
  | done => rfl
  | failed => contradiction

/-- What is on the medium for the checkpoint is what it captured, and what may still reach the
medium is not part of it. -/
structure Sealed (k : Capture D P) (disk : Disk D P) : Prop where
  medium : ∀ b, disk.medium.tags b ≤ k.tag → disk.medium.blocks b = k.blocks b
  later : ∀ b d tag, .block b d tag ∈ disk.pending → k.tag < tag

namespace Sealed

variable {k : Capture D P} {disk : Disk D P}

variable (h : Sealed k disk)
include h

/-- What a crash leaves of a sealed checkpoint. -/
theorem crash {kept : List (Write D P)} (hk : kept.Sublist disk.pending)
    {b : Nat} (hb : (disk.medium.writes kept).tags b ≤ k.tag) :
    (disk.medium.writes kept).blocks b = k.blocks b := by
  rcases Image.writes_block kept disk.medium b with ⟨d, tag, hm, -, ht⟩ | ⟨hd, ht⟩
  · have := h.later b d tag (hk.subset hm)
    omega
  · rw [hd]
    exact h.medium b (ht ▸ hb)

theorem write {w : Write D P} (hw : ∀ b d tag, w = .block b d tag → k.tag < tag)
    (a : Answer) : Sealed k (disk.write w a) := by
  refine ⟨fun b hb => ?_, fun b d tag hm => ?_⟩
  · rw [medium_write] at hb ⊢
    exact h.medium b hb
  · rcases mem_pending_write hm with hm | rfl
    · exact h.later b d tag hm
    · exact hw b d tag rfl

theorem commit (p : Bool) (cp : CpInfo P) (a : Answer) : Sealed k (disk.write (.pack p cp) a) :=
  h.write (fun _ _ _ he => by contradiction) a

theorem flush : Sealed k (disk.flush true) :=
  ⟨fun _ hb => h.crash (List.Sublist.refl _) hb, nofun⟩

end Sealed

/-! ### The invariant -/

/-- The part of a state that the device's contents depend on. -/
structure Core (D P : Type) where
  disk : Disk D P
  mem : Nat → D
  dirty : List Nat
  wb : List Nat
  ver : Nat
  held : Bool
  saved : Option ((Nat → D) × List Nat)
  unlocked : Option (Run D P)
  locked : Option (Run D P)
  tag : Nat
  issued : List (Capture D P)
  closed : List (Capture D P)

def Fs.core (s : Fs D P) : Core D P :=
  ⟨s.disk, s.mem, s.dirty, s.wb, s.ver, s.request.isSome,
    s.request.bind fun q => q.saved.map fun v => (v.1, v.2.1), s.unlocked, s.locked, s.tag, s.issued,
    s.closed⟩

/-- The commit block is being written. -/
def Stage.late (g : Stage) : Prop := g = .committing ∨ g = .closing

/-- A clean block is on the device; one in write-back is as in the snapshot. -/
structure Clean (disk : Disk D P) (wb : List Nat) (unlocked : Option (Run D P)) (mem : Nat → D)
    (dirty : List Nat) : Prop where
  clean : ∀ b, b ∉ dirty → b ∉ wb → disk.now.blocks b = mem b
  pinned : ∀ r, unlocked = some r → ∀ b ∈ wb, b ∉ dirty → mem b = r.snap.blocks b

section

variable {disk : Disk D P} {wb : List Nat} {unlocked : Option (Run D P)} {mem : Nat → D}
  {dirty : List Nat} (h : Clean disk wb unlocked mem dirty)
include h

theorem Clean.flush : Clean (disk.flush true) wb unlocked mem dirty := ⟨h.clean, h.pinned⟩

theorem Clean.commit (p : Bool) (cp : CpInfo P) (a : Answer) :
    Clean (disk.write (.pack p cp) a) wb unlocked mem dirty := by
  refine ⟨fun b hb hw => ?_, h.pinned⟩
  rw [(blocks_write_pack p cp a).1]
  exact h.clean b hb hw

/-- The unlocked checkpoint takes a step. -/
theorem Clean.runs {r r' : Run D P} (hu : unlocked = some r) (hsnap : r'.snap = r.snap) :
    Clean disk wb (some r') mem dirty := by
  refine ⟨h.clean, ?_⟩
  rintro _ ⟨⟩
  exact hsnap ▸ h.pinned r hu

end

/-- The checkpoint whose commit block is the newest on the medium. -/
structure Base (c : Core D P) (k : Capture D P) : Prop where
  issued : k ∈ c.issued
  cp : c.disk.medium.cp = k.cp
  holds : Sealed k c.disk
  closed : ∀ k' ∈ c.closed, k'.tag ≤ k.tag
  vers : ∀ p, (c.disk.medium.packs p).ver ≤ k.cp.ver
  ver : k.cp.ver ≤ c.ver
  tag : k.tag ≤ c.tag

variable {c : Core D P}

variable {k : Capture D P} {x : Core D P} {r : Run D P}

/-- Nothing happens on the device. -/
theorem Base.congr (h : Base c k) (hd : x.disk = c.disk) (hi : x.issued = c.issued)
    (hc : x.closed = c.closed) (hv : c.ver ≤ x.ver) (ht : c.tag ≤ x.tag) : Base x k :=
  ⟨hi ▸ h.issued, hd ▸ h.cp, hd ▸ h.holds, hc ▸ h.closed, hd ▸ h.vers, h.ver.trans hv, h.tag.trans ht⟩

/-- A write that is not part of the checkpoint. -/
theorem Base.write (h : Base c k) {w : Write D P} {a : Answer}
    (hw : ∀ b d tag, w = .block b d tag → k.tag < tag) (hdisk : x.disk = c.disk.write w a)
    (hissued : k ∈ x.issued) (hclosed : x.closed = c.closed) (hver : x.ver = c.ver)
    (htag : x.tag = c.tag) : Base x k := by
  have hm : x.disk.medium = c.disk.medium := by rw [hdisk, medium_write]
  refine ⟨hissued, hm ▸ h.cp, hdisk ▸ h.holds.write hw a, hclosed ▸ h.closed, hm ▸ h.vers, ?_, ?_⟩
  · rw [hver]
    exact h.ver
  · rw [htag]
    exact h.tag

/-- What is on the medium after the closing flush of `r`. -/
theorem Base.close (hbase : Base c k)
    (hall : ∀ p cp, .pack p cp ∈ c.disk.pending → p = r.snap.pack ∧ cp = r.snap.cp)
    (hissued : r.snap ∈ c.issued ∧ (r.ok = true → .pack r.snap.pack r.snap.cp ∈ c.disk.pending))
    (hsealed : Sealed r.snap c.disk) (htag : k.tag < r.snap.tag ∧ r.snap.tag ≤ c.tag)
    (hver : k.cp.ver < r.snap.cp.ver ∧ r.snap.cp.ver ≤ c.ver)
    (hdisk : x.disk = c.disk.flush true) (hcissued : x.issued = c.issued)
    (hclosed : x.closed = if r.ok then r.snap :: c.closed else c.closed)
    (hcver : x.ver = c.ver) (hctag : x.tag = c.tag) : ∃ k', Base x k' := by
  rcases Image.writes_packs hall c.disk.medium with ⟨he, hn⟩ | ⟨he, -⟩
  · -- The commit block was refused and did not land.
    have hok : r.ok = false := by
      cases hok : r.ok with
      | false => rfl
      | true => exact absurd (hissued.2 hok) hn
    refine ⟨k, hcissued ▸ hbase.issued, ?_, hdisk ▸ hbase.holds.flush, ?_, ?_, hcver ▸ hbase.ver,
      hctag ▸ hbase.tag⟩
    · rw [hdisk]
      exact (Image.cp_congr he).trans hbase.cp
    · rw [hclosed, hok]
      exact hbase.closed
    · rw [hdisk]
      intro p
      change ((c.disk.medium.writes c.disk.pending).packs p).ver ≤ _
      rw [he]
      exact hbase.vers p
  · have hvers : ∀ p, ((c.disk.medium.writes c.disk.pending).packs p).ver ≤ r.snap.cp.ver := by
      intro p
      rw [he, update_apply]
      split
      · exact Nat.le_refl _
      · have := hbase.vers p
        omega
    refine ⟨r.snap, hcissued ▸ hissued.1, ?_, hdisk ▸ hsealed.flush, fun k' hk' => ?_, ?_,
      hcver ▸ hver.2, hctag ▸ htag.2⟩
    · rw [hdisk]
      exact Image.cp_of_update he fun q => (hbase.vers q).trans_lt hver.1
    · rw [hclosed] at hk'
      have hold : k' ∈ c.closed → k'.tag ≤ r.snap.tag := fun hm => by
        have := hbase.closed k' hm
        omega
      split at hk'
      · rcases List.mem_cons.mp hk' with rfl | hk'
        · exact Nat.le_refl _
        · exact hold hk'
      · exact hold hk'
    · rw [hdisk]
      exact hvers

/-- An unlocked checkpoint, with `k` on the medium. -/
structure Unlocked (c : Core D P) (k : Capture D P) (r : Run D P) : Prop where
  tag : r.snap.tag ≤ c.tag
  ver : r.snap.cp.ver ≤ c.ver
  newer : r.stage ≠ .finished → k.tag < r.snap.tag ∧ k.cp.ver < r.snap.cp.ver
  stage : r.stage ≠ .waiting ∧ (r.stage ≠ .writing → r.todo = []) ∧ (r.stage = .committing → r.ok = true)
  todo : ∀ q ∈ r.todo, q.1 ∈ c.wb ∧ q.2 = r.snap.blocks q.1
  runs : ∀ b ∈ c.wb, b ∈ r.runs
  landed : r.ok = true → ∀ b ∈ c.wb, b ∉ r.todo.map Prod.fst → c.disk.now.blocks b = r.snap.blocks b
  writing : r.stage = .writing → r.ok = true → ∀ b, b ∉ r.todo.map Prod.fst →
    c.disk.now.tags b ≤ r.snap.tag → c.disk.now.blocks b = r.snap.blocks b
  holds : r.stage.late → Sealed r.snap c.disk
  issued : r.stage = .closing → r.snap ∈ c.issued ∧
    (r.ok = true → .pack r.snap.pack r.snap.cp ∈ c.disk.pending)

/-- A checkpoint that has finished only remembers what it has brought to the device. -/
theorem Unlocked.of_finished {k' : Capture D P}
    (h : Unlocked c k r) (hfin : r.stage = .finished) (htag : x.tag = c.tag) (hver : c.ver ≤ x.ver)
    (hwb : ∀ b ∈ x.wb, b ∈ c.wb ∧ x.disk.now.blocks b = c.disk.now.blocks b) : Unlocked x k' r := by
  have htodo : r.todo = [] := h.stage.2.1 (by rw [hfin]; nofun)
  refine ⟨htag ▸ h.tag, h.ver.trans hver, fun hne => absurd hfin hne, h.stage, ?_,
    fun b hb => h.runs b (hwb b hb).1, fun hok b hb ht => ?_, ?_, ?_, ?_⟩
  · rw [htodo]
    nofun
  · rw [(hwb b hb).2]
    exact h.landed hok b (hwb b hb).1 ht
  · rw [hfin]
    nofun
  · rw [hfin]
    rintro (hx | hx) <;> contradiction
  · rw [hfin]
    nofun

/-- A locked checkpoint, with `k` on the medium. -/
structure Locked (c : Core D P) (k : Capture D P) (r : Run D P) : Prop where
  held : c.held = false
  blocks : r.snap.blocks = c.mem
  stage : r.stage ≠ .finished
  alone : r.stage ≠ .waiting → ∀ u, c.unlocked = some u → u.stage = .finished
  newer : r.stage ≠ .waiting → k.tag < r.snap.tag ∧ r.snap.tag ≤ c.tag
  todo : r.stage = .writing → (∀ q ∈ r.todo, q.2 = c.mem q.1) ∧
    ∀ b, b ∈ c.dirty ∨ b ∈ c.wb → b ∈ r.todo.map Prod.fst
  late : r.stage.late → c.dirty = [] ∧ c.wb = [] ∧ Sealed r.snap c.disk ∧
    k.cp.ver < r.snap.cp.ver ∧ r.snap.cp.ver ≤ c.ver
  issued : r.stage = .closing → r.snap ∈ c.issued ∧
    (r.ok = true → .pack r.snap.pack r.snap.cp ∈ c.disk.pending)

theorem Locked.of_waiting (hs : r.stage = .waiting)
    (hh : c.held = false) (hb : r.snap.blocks = c.mem) : Locked c k r := by
  refine ⟨hh, hb, ?_, fun hne => absurd hs hne, fun hne => absurd hs hne, ?_, ?_, ?_⟩
  · rw [hs]
    nofun
  · rw [hs]
    nofun
  · rintro (hst | hst) <;> rw [hs] at hst <;> contradiction
  · rw [hs]
    nofun

/-- A commit block that has not reached the medium is the one of a running checkpoint. -/
def Core.Packs (c : Core D P) : Prop :=
  ∀ p cp, .pack p cp ∈ c.disk.pending → ∃ r, (c.unlocked = some r ∨ c.locked = some r) ∧
    r.stage = .closing ∧ p = r.snap.pack ∧ cp = r.snap.cp

/-- The invariant. -/
structure Core.Inv (c : Core D P) : Prop where
  base : ∃ k, Base c k ∧ (∀ r, c.unlocked = some r → Unlocked c k r) ∧
    ∀ r, c.locked = some r → Locked c k r
  packs : c.Packs
  clean : Clean c.disk c.wb c.unlocked c.mem c.dirty
  saved : ∀ v, c.saved = some v → Clean c.disk c.wb c.unlocked v.1 v.2
  free : c.unlocked = none → c.wb = []
  idle : c.held = false → c.saved = none

/-! ### What survives -/

/-- The image that is left when only the writes `kept` of those since the last flush were
done. -/
def Fs.surviving (s : Fs D P) (kept : List (Write D P)) : Image D P := s.disk.medium.writes kept

/-- Of the running checkpoints only one is at work. -/
theorem Core.Inv.alone (h : c.Inv) {r' : Run D P} (hr : c.unlocked = some r ∨ c.locked = some r)
    (hw : r.stage ≠ .waiting) (hf : r.stage ≠ .finished)
    (hr' : c.unlocked = some r' ∨ c.locked = some r') (hc : r'.stage = .closing) : r' = r := by
  obtain ⟨k, -, -, hloc⟩ := h.base
  rcases hr with hr | hr <;> rcases hr' with hr' | hr'
  · exact Option.some.inj (hr'.symm.trans hr)
  · exact absurd ((hloc r' hr').alone (by rw [hc]; nofun) r hr) hf
  · rw [(hloc r hr).alone hw r' hr'] at hc
    contradiction
  · exact Option.some.inj (hr'.symm.trans hr)

/-- Every commit block that has not reached the medium is that of the run that closes. -/
theorem Core.Inv.only (h : c.Inv) (hr : c.unlocked = some r ∨ c.locked = some r)
    (hst : r.stage = .closing) {p : Bool} {cp : CpInfo P} (hm : .pack p cp ∈ c.disk.pending) :
    p = r.snap.pack ∧ cp = r.snap.cp := by
  obtain ⟨r', hr', hst', hp⟩ := h.packs p cp hm
  exact h.alone hr (by rw [hst]; nofun) (by rw [hst]; nofun) hr' hst' ▸ hp

/-- The checkpoint that `mount` selects after a crash. -/
theorem Core.Inv.crash (h : c.Inv) {kept : List (Write D P)} (hk : kept.Sublist c.disk.pending) :
    ∃ k ∈ c.issued, (c.disk.medium.writes kept).cp = k.cp ∧ Sealed k c.disk ∧
      ∀ k' ∈ c.closed, k'.tag ≤ k.tag := by
  obtain ⟨k, hbase, hunl, hloc⟩ := h.base
  by_cases hp : ∃ p cp, .pack p cp ∈ kept
  · -- a pack was among the kept writes: the checkpoint in it is the newer one
    obtain ⟨p, cp, hm⟩ := hp
    obtain ⟨r, hr, hstage, rfl, rfl⟩ := h.packs p cp (hk.subset hm)
    have hall : ∀ p' cp', .pack p' cp' ∈ kept → p' = r.snap.pack ∧ cp' = r.snap.cp :=
      fun _ _ hm' => h.only hr hstage (hk.subset hm')
    have hrun : r.snap ∈ c.issued ∧ Sealed r.snap c.disk ∧ k.tag < r.snap.tag ∧
        k.cp.ver < r.snap.cp.ver := by
      -- it is that of the worker or the one under the lock
      rcases hr with hr | hr
      · have hu := hunl r hr
        exact ⟨(hu.issued hstage).1, hu.holds (.inr hstage), hu.newer (by rw [hstage]; nofun)⟩
      · have hl := hloc r hr
        have hlate := hl.late (.inr hstage)
        exact ⟨(hl.issued hstage).1, hlate.2.2.1, (hl.newer (by rw [hstage]; nofun)).1, hlate.2.2.2.1⟩
    obtain ⟨hissued, hsealed, htag, hver⟩ := hrun
    refine ⟨r.snap, hissued, ?_, hsealed, fun k' hk' => ?_⟩
    · rcases Image.writes_packs hall c.disk.medium with ⟨-, hn⟩ | ⟨he, -⟩
      · exact absurd hm hn
      exact Image.cp_of_update he fun q => (hbase.vers q).trans_lt hver
    · have := hbase.closed k' hk'
      omega
  · -- no pack was kept, so the base still has the highest version
    refine ⟨k, hbase.issued, ?_, hbase.holds, hbase.closed⟩
    have hall : ∀ p' cp', .pack p' cp' ∈ kept → p' = true ∧ cp' = k.cp :=
      fun p' cp' hm => absurd ⟨p', cp', hm⟩ hp
    rcases Image.writes_packs hall c.disk.medium with ⟨he, -⟩ | ⟨-, hm⟩
    · exact (Image.cp_congr he).trans hbase.cp
    · exact absurd ⟨_, _, hm⟩ hp

/-! ### Steps -/

namespace Core.Inv

variable {c : Core D P}

/-- A request changes the cache, or ends. -/
theorem memory (h : c.Inv) (hl : c.locked = none) {mem : Nat → D} {dirty : List Nat} {held : Bool}
    {saved : Option ((Nat → D) × List Nat)} (hidle : held = false → saved = none)
    (hclean : Clean c.disk c.wb c.unlocked mem dirty)
    (hsaved : ∀ v, saved = some v → Clean c.disk c.wb c.unlocked v.1 v.2) :
    ({ c with mem, dirty, held, saved } : Core D P).Inv := by
  obtain ⟨k, hbase, hunl, -⟩ := h.base
  refine ⟨⟨k, hbase.congr rfl rfl rfl le_rfl le_rfl, fun r hr => ?_, fun r hr => ?_⟩, h.packs, hclean,
    hsaved, h.free, hidle⟩
  · have hu := hunl r hr
    exact ⟨hu.tag, hu.ver, hu.newer, hu.stage, hu.todo, hu.runs, hu.landed, hu.writing, hu.holds,
      hu.issued⟩
  · rw [hl] at hr
    contradiction

/-- What is left of a list of blocks when one has been written. -/
theorem mem_others {l : List Nat} {b b' : Nat} : b' ∈ l.filter (· ≠ b) ↔ b' ∈ l ∧ b' ≠ b := by
  simp

/-- The request that holds the lock excludes locked checkpoints. -/
theorem unlocked_of_held (h : c.Inv) (hh : c.held = true) : c.locked = none := by
  obtain ⟨k, -, -, hloc⟩ := h.base
  cases hl : c.locked with
  | none => rfl
  | some r =>
    have := (hloc r hl).held
    rw [hh] at this
    contradiction

theorem store (h : c.Inv) (hh : c.held = true) (b : Nat) (d : D) :
    ({ c with
        mem := update c.mem b d
        dirty := if b ∈ c.dirty then c.dirty else b :: c.dirty } : Core D P).Inv := by
  -- after the store a block that is not dirty is another one
  have hmem : ∀ b', b' ∉ (if b ∈ c.dirty then c.dirty else b :: c.dirty) → b' ≠ b ∧ b' ∉ c.dirty := by
    intro b' hb'
    split at hb'
    · next hb =>
      refine ⟨?_, hb'⟩
      rintro rfl
      exact hb' hb
    · exact ⟨fun he => hb' (he ▸ .head _), fun hm => hb' (.tail _ hm)⟩
  refine h.memory (h.unlocked_of_held hh) h.idle ⟨fun b' hd hw => ?_, fun r hr b' hw hd => ?_⟩ h.saved
  · obtain ⟨hne, hd⟩ := hmem b' hd
    rw [update_of_ne hne]
    exact h.clean.clean b' hd hw
  · obtain ⟨hne, hd⟩ := hmem b' hd
    rw [update_of_ne hne]
    exact h.clean.pinned r hr b' hw hd

/-- A block is written back in place and leaves the cache. -/
theorem backstop (h : c.Inv) (hl : c.locked = none) {b : Nat} (a : Answer)
    (hwait : b ∈ c.wb → ∀ r, c.unlocked = some r → r.stage = .finished) :
    ({ c with
        disk := c.disk.write (.block b (c.mem b) (c.tag + 1)) a
        mem := if a.lands then c.mem else update c.mem b (c.disk.now.blocks b)
        dirty := c.dirty.filter (· ≠ b)
        wb := c.wb.filter (· ≠ b)
        saved := none } : Core D P).Inv := by
  obtain ⟨k, hbase, hunl, -⟩ := h.base
  -- the tag of the write is past all captures
  have hlater : ∀ (k' : Capture D P), k'.tag ≤ c.tag → ∀ b' d tag,
      Write.block (P := P) b (c.mem b) (c.tag + 1) = .block b' d tag → k'.tag < tag := by
    rintro k' hk' b' d tag ⟨⟩
    omega
  refine ⟨⟨k, hbase.write (hlater k hbase.tag) rfl hbase.issued rfl rfl rfl, fun r hr => ?_,
    fun r hr => ?_⟩, fun p cp hm => ?_, ⟨fun b' hd hw => ?_, fun r hr b' hw hd => ?_⟩, nofun,
    fun hu => ?_, fun _ => rfl⟩
  · have hu := hunl r hr
    -- a worker that still has this block to write would be waited for
    have hdone : b ∈ c.wb → r.todo = [] := fun hb => hu.stage.2.1 (by rw [hwait hb r hr]; nofun)
    refine ⟨hu.tag, hu.ver, hu.newer, hu.stage, fun q hq => ?_,
      fun b' hb' => hu.runs b' (mem_others.mp hb').1,
      fun hok b' hb' ht => ?_, fun hst hok b' ht htag => ?_,
      fun hst => (hu.holds hst).write (hlater r.snap hu.tag) a, fun hst => ?_⟩
    · obtain ⟨hw, hd⟩ := hu.todo q hq
      refine ⟨mem_others.mpr ⟨hw, ?_⟩, hd⟩
      rintro rfl
      rw [hdone hw] at hq
      contradiction
    · obtain ⟨hw, hne⟩ := mem_others.mp hb'
      rw [(blocks_write hne).1]
      exact hu.landed hok b' hw ht
    -- the block of the write, if it landed, has a tag that the snapshot does not cover
    · by_cases hb : b' = b
      · subst hb
        cases hla : a.lands with
        | true =>
          rw [(blocks_write_self hla).2] at htag
          have := hu.tag
          omega
        | false =>
          rw [now_write, hla] at htag ⊢
          exact hu.writing hst hok b' ht htag
      · rw [(blocks_write hb).1]
        rw [(blocks_write hb).2] at htag
        exact hu.writing hst hok b' ht htag
    · obtain ⟨hi, hs⟩ := hu.issued hst
      exact ⟨hi, fun hok => pending_subset_write (hs hok)⟩
  · rw [hl] at hr
    contradiction
  · rcases mem_pending_write hm with hm | he
    · exact h.packs p cp hm
    · contradiction
  · by_cases hb : b' = b
    · subst hb
      -- a write that failed leaves the old block on the disk, and the cache drops its copy
      cases hla : a.lands with
      | true => rw [(blocks_write_self hla).1, if_pos rfl]
      | false =>
        rw [now_write, hla]
        exact (update_self b' (c.disk.now.blocks b') c.mem).symm
    · have hd' : b' ∉ c.dirty := fun hm => hd (mem_others.mpr ⟨hm, hb⟩)
      have hw' : b' ∉ c.wb := fun hm => hw (mem_others.mpr ⟨hm, hb⟩)
      rw [(blocks_write hb).1, h.clean.clean b' hd' hw']
      split
      · rfl
      · exact (update_of_ne hb _ _).symm
  · obtain ⟨hw, hne⟩ := mem_others.mp hw
    have hd' : b' ∉ c.dirty := fun hm => hd (mem_others.mpr ⟨hm, hne⟩)
    dsimp only
    split
    · exact h.clean.pinned r hr b' hw hd'
    · rw [update_of_ne hne]
      exact h.clean.pinned r hr b' hw hd'
  · rw [h.free hu]
    rfl

variable {r : Run D P} {todo : List (Nat × D)}

variable (h : c.Inv)
include h

/-- While the checkpoint at work has not written its commit block, none is on its way. -/
theorem no_packs (hr : c.unlocked = some r ∨ c.locked = some r)
    (hst : r.stage ∈ [.writing, .committing]) (p : Bool) (cp : CpInfo P) :
    .pack p cp ∉ c.disk.pending := by
  intro hm
  obtain ⟨r', hr', hc, -⟩ := h.packs p cp hm
  have hne : r.stage ≠ .waiting ∧ r.stage ≠ .finished ∧ r.stage ≠ .closing := by
    cases hs : r.stage <;> rw [hs] at hst <;> simp at hst ⊢
  exact hne.2.2 (h.alone hr hne.1 hne.2.1 hr' hc ▸ hc)

theorem medium_packs (hr : c.unlocked = some r ∨ c.locked = some r)
    (hst : r.stage ∈ [.writing, .committing]) : c.disk.now.packs = c.disk.medium.packs := by
  obtain ⟨k, -⟩ := h.base
  have hnone := h.no_packs hr hst
  have hall : ∀ p cp, .pack p cp ∈ c.disk.pending → p = true ∧ cp = k.cp :=
    fun p cp hm => absurd hm (hnone p cp)
  rcases Image.writes_packs hall c.disk.medium with ⟨he, -⟩ | ⟨-, hm⟩
  · exact he
  · exact absurd hm (hnone _ _)

/-- Phase 1 of an unlocked checkpoint. -/
theorem phase1 (hu : c.unlocked = none) (hl : c.locked = none) (hs : c.saved = none)
    {ver : Nat} (hver : c.ver < ver) (hstage : r.stage = .writing)
    (htag : r.snap.tag = c.tag + 1) (hblocks : r.snap.blocks = c.mem) (hcp : r.snap.cp.ver = ver)
    (hruns : r.runs = c.dirty) (htodo : ∀ b d, (b, d) ∈ r.todo ↔ b ∈ c.dirty ∧ d = c.mem b) :
    ({ c with dirty := [], wb := c.dirty, ver, tag := c.tag + 1, unlocked := some r } :
      Core D P).Inv := by
  obtain ⟨k, hbase, -⟩ := h.base
  -- no earlier checkpoint has blocks left
  have hwb : c.wb = [] := h.free hu
  -- the work is the dirty blocks, each once
  have hmem : ∀ b, b ∈ r.todo.map Prod.fst ↔ b ∈ c.dirty := by
    intro b
    rw [List.mem_map]
    constructor
    · rintro ⟨⟨b, d⟩, hm, rfl⟩
      exact ((htodo b d).mp hm).1
    · intro hb
      exact ⟨(b, c.mem b), (htodo _ _).mpr ⟨hb, rfl⟩, rfl⟩
  have hnow : ∀ b, b ∉ c.dirty → c.disk.now.blocks b = c.mem b :=
    fun b hb => h.clean.clean b hb (by rw [hwb]; nofun)
  refine ⟨⟨k, hbase.congr rfl rfl rfl hver.le (Nat.le_succ _), ?_, ?_⟩, ?_,
    ⟨fun b _ hw => hnow b hw, ?_⟩, ?_, nofun, h.idle⟩
  · rintro _ ⟨⟩
    refine ⟨Nat.le_of_eq htag, Nat.le_of_eq hcp, fun _ => ?_, ⟨?_, ?_, ?_⟩, fun q hq => ?_, fun b hb => ?_,
      fun _ b hb ht => ?_, fun _ _ b ht _ => ?_, fun hst => ?_, fun hst => ?_⟩
    · have := hbase.ver
      have := hbase.tag
      omega
    · rw [hstage]
      nofun
    · exact fun hne => absurd hstage hne
    · rw [hstage]
      nofun
    · obtain ⟨hb, hd⟩ := (htodo q.1 q.2).mp hq
      exact ⟨hb, by rw [hd, hblocks]⟩
    · exact hruns ▸ hb
    · exact absurd ((hmem b).mpr hb) ht
    · rw [hblocks]
      exact hnow b fun hb => ht ((hmem b).mpr hb)
    · rw [hstage] at hst
      rcases hst with hst | hst <;> contradiction
    · rw [hstage] at hst
      contradiction
  · intro r' hr'
    rw [hl] at hr'
    contradiction
  · -- no run was there, so no pack is on its way
    intro p cp hm
    obtain ⟨r', hr' | hr', -⟩ := h.packs p cp hm
    · rw [hu] at hr'
      contradiction
    · rw [hl] at hr'
      contradiction
  · rintro _ ⟨⟩ b - -
    rw [hblocks]
  · intro v hv
    rw [hs] at hv
    contradiction

/-- A locked checkpoint starts. -/
theorem lock (hl : c.locked = none) (hh : c.held = false)
    (hstage : r.stage = .waiting) (hblocks : r.snap.blocks = c.mem) :
    ({ c with locked := some r } : Core D P).Inv := by
  obtain ⟨k, hbase, hunl, -⟩ := h.base
  refine ⟨⟨k, hbase.congr rfl rfl rfl le_rfl le_rfl, fun r hr => ?_, ?_⟩, fun p cp hm => ?_, h.clean,
    h.saved, h.free, h.idle⟩
  · have hu := hunl r hr
    exact ⟨hu.tag, hu.ver, hu.newer, hu.stage, hu.todo, hu.runs, hu.landed, hu.writing, hu.holds,
      hu.issued⟩
  · rintro _ ⟨⟩
    exact .of_waiting hstage hh hblocks
  · obtain ⟨r', hr' | hr', hrest⟩ := h.packs p cp hm
    · exact ⟨r', .inl hr', hrest⟩
    · rw [hl] at hr'
      contradiction

/-- While an unlocked checkpoint is writing, a locked one waits. -/
theorem waiting {l : Run D P} (hu : c.unlocked = some r) (hst : r.stage ≠ .finished)
    (hl : c.locked = some l) {x : Core D P} {k : Capture D P} (hh : x.held = c.held)
    (hm : x.mem = c.mem) : Locked x k l := by
  obtain ⟨k, -, -, hloc⟩ := h.base
  have hlr := hloc l hl
  refine .of_waiting ?_ (hh.trans hlr.held) (hlr.blocks.trans hm.symm)
  by_contra hne
  exact hst (hlr.alone hne r hu)

section

variable (hl : c.locked = some r)
include hl

/-- A locked checkpoint starts to write. -/
theorem plan
    (hwait : r.stage = .waiting) (hidle : ∀ u, c.unlocked = some u → u.stage = .finished)
    (htodo : ∀ b d, (b, d) ∈ todo ↔ (b ∈ c.dirty ∨ b ∈ c.wb) ∧ d = c.mem b) :
    ({ c with
        tag := c.tag + 1
        locked := some
          { r with snap := { r.snap with tag := c.tag + 1 }, todo := todo, stage := .writing } } :
      Core D P).Inv := by
  obtain ⟨k, hbase, hunl, hloc⟩ := h.base
  have hlr := hloc r hl
  refine ⟨⟨k, hbase.congr rfl rfl rfl le_rfl (Nat.le_succ _), fun u hu => ?_, ?_⟩, fun p cp hm => ?_,
    h.clean, h.saved, h.free, h.idle⟩
  · -- the worker has finished and only the tag moved
    have hu' := hunl u hu
    exact ⟨Nat.le_succ_of_le hu'.tag, hu'.ver, hu'.newer, hu'.stage, hu'.todo, hu'.runs, hu'.landed,
      hu'.writing, hu'.holds, hu'.issued⟩
  · rintro _ ⟨⟩
    refine ⟨hlr.held, hlr.blocks, nofun, fun _ => hidle, fun _ => ⟨?_, Nat.le_refl _⟩, fun _ =>
      ⟨fun q hq => ((htodo q.1 q.2).mp hq).2, fun b hb => ?_⟩, ?_, nofun⟩
    · exact Nat.lt_succ_of_le hbase.tag
    · exact List.mem_map.mpr ⟨(b, c.mem b), (htodo _ _).mpr ⟨hb, rfl⟩, rfl⟩
    · rintro (hst | hst) <;> contradiction
  · -- a pack on its way would be of a run past its writes, and there is none
    obtain ⟨r', hr' | hr', hst, -⟩ := h.packs p cp hm
    · rw [hidle r' hr'] at hst
      contradiction
    · rw [Option.some.inj (hr'.symm.trans hl), hwait] at hst
      contradiction

/-- A locked checkpoint writes a block. -/
theorem writeLocked (hst : r.stage = .writing)
    {b : Nat} {d : D} (htodo : r.todo = (b, d) :: todo) {a : Answer} (ha : a.ok = true) :
    ({ c with
        disk := c.disk.write (.block b d r.snap.tag) a
        dirty := c.dirty.filter (· ≠ b)
        wb := c.wb.filter (· ≠ b)
        locked := some { r with todo := todo, ok := r.ok && a.ok } } : Core D P).Inv := by
  obtain ⟨k, hbase, hunl, hloc⟩ := h.base
  have hr := hloc r hl
  have hne : r.stage ≠ .waiting := by
    rw [hst]
    nofun
  obtain ⟨hktag, hrtag⟩ := hr.newer hne
  obtain ⟨hdata, hpin⟩ := hr.todo hst
  -- what is written is the cached block as it is
  have hd : d = c.mem b := hdata (b, d) (by rw [htodo]; exact .head _)
  have hlands := Answer.lands_of_ok ha
  -- its tag is past that of the base
  have hlater : ∀ b' d' tag,
    Write.block (P := P) b d r.snap.tag = .block b' d' tag → k.tag < tag := by
    rintro b' d' tag ⟨⟩
    exact hktag
  have hsaved : c.saved = none := h.idle hr.held
  refine ⟨⟨k, hbase.write hlater rfl hbase.issued rfl rfl rfl, fun u hu => ?_, ?_⟩,
    fun p cp hm => ?_, ⟨fun b' hb' hw => ?_, fun u hu b' hw hb' => ?_⟩, fun v hv => ?_,
    fun hu => ?_, h.idle⟩
  · -- the other run has finished, and its copies of other blocks stay
    refine (hunl u hu).of_finished (hr.alone hne u hu) rfl le_rfl fun b' hb' => ?_
    obtain ⟨hw, hb⟩ := mem_others.mp hb'
    exact ⟨hw, (blocks_write hb).1⟩
  · rintro _ ⟨⟩
    refine ⟨hr.held, hr.blocks, hr.stage, hr.alone, hr.newer,
      fun _ => ⟨fun q hq => hdata q (by rw [htodo]; exact .tail _ hq), fun b' hb' => ?_⟩,
        fun hx => ?_,
      fun hx => ?_⟩
    · -- the work that is left covers what is still dirty or held
      have hb : (b' ∈ c.dirty ∨ b' ∈ c.wb) ∧ b' ≠ b := by
        rcases hb' with hb' | hb'
        · exact ⟨.inl (mem_others.mp hb').1, (mem_others.mp hb').2⟩
        · exact ⟨.inr (mem_others.mp hb').1, (mem_others.mp hb').2⟩
      have hm := hpin b' hb.1
      rw [htodo] at hm
      exact (List.mem_cons.mp hm).resolve_left hb.2
    · rw [hst] at hx
      rcases hx with hx | hx <;> contradiction
    · rw [hst] at hx
      contradiction
  · rcases mem_pending_write hm with hm | he
    · exact absurd hm (h.no_packs (.inr hl) (by rw [hst]; exact .head _) p cp)
    · contradiction
  -- the block that was written is clean now
  · by_cases hb : b' = b
    · subst hb
      rw [(blocks_write_self hlands).1, hd]
    · rw [(blocks_write hb).1]
      exact h.clean.clean b' (fun hm => hb' (mem_others.mpr ⟨hm, hb⟩)) fun hm => hw (mem_others.mpr ⟨hm, hb⟩)
  · obtain ⟨hw, hb⟩ := mem_others.mp hw
    exact h.clean.pinned u hu b' hw fun hm => hb' (mem_others.mpr ⟨hm, hb⟩)
  · rw [hsaved] at hv
    contradiction
  · rw [h.free hu]
    rfl

/-- The flush of a locked checkpoint before its commit block, which is built then. -/
theorem flushLocked (hst : r.stage = .writing)
    (htodo : r.todo = []) {ver : Nat} (hver : c.ver < ver) (pack : Bool) {cp : CpInfo P}
    (hcp : cp.ver = ver) :
    ({ c with
        disk := c.disk.flush true
        ver
        locked := some { r with stage := .committing, snap := { r.snap with pack, cp } } } :
      Core D P).Inv := by
  have hne : r.stage ≠ .waiting := by
    rw [hst]
    nofun
  have hpacks := h.medium_packs (.inr hl) (by rw [hst]; exact .head _)
  obtain ⟨k, hbase, hunl, hloc⟩ := h.base
  have hr := hloc r hl
  have hpin := (hr.todo hst).2
  -- nothing is left to write, so nothing is dirty or held
  have hdirty : c.dirty = [] := List.eq_nil_iff_forall_not_mem.mpr fun b hb => by
    have := hpin b (.inl hb)
    rw [htodo] at this
    contradiction
  have hwb : c.wb = [] := List.eq_nil_iff_forall_not_mem.mpr fun b hb => by
    have := hpin b (.inr hb)
    rw [htodo] at this
    contradiction
  have hbv := hbase.ver
  refine ⟨⟨k, ⟨hbase.issued, (Image.cp_congr hpacks).trans hbase.cp, hbase.holds.flush, hbase.closed, ?_,
    ?_, hbase.tag⟩, fun u hu => ?_, ?_⟩, nofun, h.clean.flush, fun v hv => (h.saved v hv).flush, h.free,
    h.idle⟩
  · intro p
    change (c.disk.now.packs p).ver ≤ _
    rw [hpacks]
    exact hbase.vers p
  · dsimp only
    omega
  · exact (hunl u hu).of_finished (hr.alone hne u hu) rfl hver.le fun b hb => ⟨hb, rfl⟩
  · rintro _ ⟨⟩
    refine ⟨hr.held, hr.blocks, nofun, fun _ => hr.alone hne, fun _ => hr.newer hne, nofun,
      fun _ => ⟨hdirty, hwb, ⟨fun b _ => ?_, nofun⟩, ?_, Nat.le_of_eq hcp⟩, nofun⟩
    · -- the disk has the captured blocks, which the flush brings to the medium
      have hb := h.clean.clean b (by rw [hdirty]; nofun) (by rw [hwb]; nofun)
      rw [← hr.blocks] at hb
      exact hb
    · dsimp only
      omega

/-- The commit block of a locked checkpoint is written. -/
theorem commitLocked (hst : r.stage = .committing) (a : Answer) :
    ({ c with
        disk := c.disk.write (.pack r.snap.pack r.snap.cp) a
        locked := some { r with stage := .closing, ok := r.ok && a.ok }
        issued := r.snap :: c.issued } : Core D P).Inv := by
  obtain ⟨k, hbase, hunl, hloc⟩ := h.base
  have hr := hloc r hl
  have hne : r.stage ≠ .waiting := by
    rw [hst]
    nofun
  obtain ⟨hdirty, hwb, hsealed, hver⟩ := hr.late (.inl hst)
  refine ⟨⟨k, hbase.write (w := .pack r.snap.pack r.snap.cp) nofun rfl (.tail _ hbase.issued) rfl rfl rfl,
    fun u hu => ?_, ?_⟩,
    fun p cp hm => ?_, h.clean.commit _ _ _, fun v hv => (h.saved v hv).commit _ _ _, h.free, h.idle⟩
  · -- a record is no block
    refine (hunl u hu).of_finished (hr.alone hne u hu) rfl le_rfl fun b hb => ⟨hb, ?_⟩
    rw [(blocks_write_pack _ _ _).1]
  · rintro _ ⟨⟩
    refine ⟨hr.held, hr.blocks, nofun, fun _ => hr.alone hne, fun _ => hr.newer hne, nofun,
      fun _ => ⟨hdirty, hwb, hsealed.commit _ _ a, hver⟩, fun _ => ⟨.head _, fun hok => ?_⟩⟩
    rw [write, if_pos (Answer.lands_of_ok (Bool.and_eq_true _ _ ▸ hok).2)]
    exact List.mem_append_right _ (.head _)
  -- only one record can be on its way
  · rcases mem_pending_write hm with hm | he
    · exact absurd hm (h.no_packs (.inr hl) (by rw [hst]; exact .tail _ (.head _)) p cp)
    · obtain ⟨rfl, rfl⟩ := Write.pack.inj he
      exact ⟨_, .inr rfl, rfl, rfl, rfl⟩

/-- The closing flush of a locked checkpoint. -/
theorem closeLocked (hst : r.stage = .closing) :
    ({ c with
        disk := c.disk.flush true
        locked := none
        closed := if r.ok then r.snap :: c.closed else c.closed } : Core D P).Inv := by
  obtain ⟨k, hbase, hunl, hloc⟩ := h.base
  have hr := hloc r hl
  have hne : r.stage ≠ .waiting := by
    rw [hst]
    nofun
  obtain ⟨-, -, hsealed, hver⟩ := hr.late (.inr hst)
  -- after the flush the record is the base, or the old base has outlived a failed write
  obtain ⟨k', hbase'⟩ := hbase.close (fun _ _ => h.only (.inr hl) hst) (hr.issued hst) hsealed
    (hr.newer hne) hver
    (x := { c with
      disk := c.disk.flush true
      locked := none
      closed := if r.ok then r.snap :: c.closed else c.closed }) rfl rfl rfl rfl rfl
  refine ⟨⟨k', hbase', fun u hu => ?_, nofun⟩, nofun, h.clean.flush, fun v hv => (h.saved v hv).flush,
    h.free, h.idle⟩
  exact (hunl u hu).of_finished (hr.alone hne u hu) rfl le_rfl fun b hb => ⟨hb, rfl⟩

end

variable (hu : c.unlocked = some r)
include hu

/-- An unlocked checkpoint writes a block. -/
theorem writeUnlocked (hst : r.stage = .writing)
    {b : Nat} {d : D} (htodo : r.todo = (b, d) :: todo) (a : Answer) :
    ({ c with
        disk := c.disk.write (.block b d r.snap.tag) a
        unlocked := some { r with todo := todo, ok := r.ok && a.ok } } : Core D P).Inv := by
  obtain ⟨k, hbase, hunl, hloc⟩ := h.base
  have hr := hunl r hu
  obtain ⟨hbw, hd⟩ := hr.todo (b, d) (by rw [htodo]; exact .head _)
  obtain ⟨hktag, -⟩ := hr.newer (by rw [hst]; nofun)
  have hlater : ∀ b' d' tag, Write.block (P := P) b d r.snap.tag = .block b' d' tag → k.tag < tag := by
    rintro b' d' tag ⟨⟩
    exact hktag
  have hclean : ∀ {mem : Nat → D} {dirty : List Nat}, Clean c.disk c.wb c.unlocked mem dirty →
      Clean (c.disk.write (.block b d r.snap.tag) a) c.wb
        (some { r with todo := todo, ok := r.ok && a.ok }) mem dirty := by
    intro mem dirty hcl
    refine ⟨fun b' hb' hw => ?_, ?_⟩
    · have hb : b' ≠ b := by
        rintro rfl
        exact hw hbw
      rw [(blocks_write hb).1]
      exact hcl.clean b' hb' hw
    · rintro _ ⟨⟩ b' hw hb'
      exact hcl.pinned r hu b' hw hb'
  -- A block that is no longer to be written is this one, or was not to be written before.
  have hout : ∀ b', b' ∉ todo.map Prod.fst → b' = b ∨ b' ∉ r.todo.map Prod.fst := by
    intro b' hb'
    rw [htodo, List.map_cons, List.mem_cons, not_or]
    by_cases he : b' = b
    · exact .inl he
    · exact .inr ⟨he, hb'⟩
  refine ⟨⟨k, hbase.write hlater rfl hbase.issued rfl rfl rfl, ?_,
    fun l hl => h.waiting hu (by rw [hst]; nofun) hl rfl rfl⟩, fun p cp hm => ?_, hclean h.clean,
    fun v hv => hclean (h.saved v hv), nofun, h.idle⟩
  · rintro _ ⟨⟩
    refine ⟨hr.tag, hr.ver, hr.newer, ⟨hr.stage.1, fun hne => absurd hst hne, fun hc => ?_⟩,
      fun q hq => hr.todo q (by rw [htodo]; exact .tail _ hq), hr.runs, fun hok b' hw ht => ?_,
      fun _ hok b' ht htag => ?_, fun hlate => ?_, fun hc => ?_⟩
    · rw [hst] at hc
      contradiction
    · rw [Bool.and_eq_true] at hok
      by_cases hb : b' = b
      · subst hb
        exact (blocks_write_self (Answer.lands_of_ok hok.2)).1.trans hd
      · rw [(blocks_write hb).1]
        exact hr.landed hok.1 b' hw ((hout b' ht).resolve_left hb)
    · rw [Bool.and_eq_true] at hok
      by_cases hb : b' = b
      · subst hb
        exact (blocks_write_self (Answer.lands_of_ok hok.2)).1.trans hd
      · rw [(blocks_write hb).1]
        rw [(blocks_write hb).2] at htag
        exact hr.writing hst hok.1 b' ((hout b' ht).resolve_left hb) htag
    · rw [hst] at hlate
      rcases hlate with hlate | hlate <;> contradiction
    · rw [hst] at hc
      contradiction
  · rcases mem_pending_write hm with hm | he
    · exact absurd hm (h.no_packs (.inl hu) (by rw [hst]; exact .head _) p cp)
    · contradiction

/-- The flush of an unlocked checkpoint before its commit block. -/
theorem flushUnlocked (hst : r.stage = .writing) (htodo : r.todo = []) :
    ({ c with
        disk := c.disk.flush true
        unlocked := some { r with stage := if r.ok then .committing else .finished } } :
      Core D P).Inv := by
  -- no record is on its way during the writes
  have hpacks := h.medium_packs (.inl hu) (by rw [hst]; exact .head _)
  obtain ⟨k, hbase, hunl, hloc⟩ := h.base
  have hr := hunl r hu
  have hnewer := hr.newer (by rw [hst]; nofun)
  refine ⟨⟨k, ⟨hbase.issued, (Image.cp_congr hpacks).trans hbase.cp, hbase.holds.flush, hbase.closed, ?_,
    hbase.ver, hbase.tag⟩, ?_, fun l hl => h.waiting hu (by rw [hst]; nofun) hl rfl rfl⟩, nofun,
    h.clean.flush.runs hu rfl, fun v hv => (h.saved v hv).flush.runs hu rfl, nofun, h.idle⟩
  · intro p
    change (c.disk.now.packs p).ver ≤ _
    rw [hpacks]
    exact hbase.vers p
  · rintro _ ⟨⟩
    refine ⟨hr.tag, hr.ver, fun _ => hnewer, ⟨?_, fun _ => htodo, fun hc => ?_⟩, hr.todo, hr.runs,
      hr.landed, fun hc => ?_, fun hlate => ⟨fun b hb => ?_, nofun⟩, fun hc => ?_⟩
    · split <;> nofun
    · split at hc
      · assumption
      · contradiction
    · split at hc <;> contradiction
    · -- with a write failed there is no record and nothing to hold
      have hok : r.ok = true := by
        cases hok : r.ok with
        | true => rfl
        | false =>
          rw [hok] at hlate
          rcases hlate with hlate | hlate <;> contradiction
      exact hr.writing hst hok b (by rw [htodo]; nofun) hb
    · split at hc <;> contradiction

/-- The commit block of an unlocked checkpoint is written. -/
theorem commitUnlocked (hst : r.stage = .committing) (a : Answer) :
    ({ c with
        disk := c.disk.write (.pack r.snap.pack r.snap.cp) a
        unlocked := some { r with stage := .closing, ok := r.ok && a.ok }
        issued := r.snap :: c.issued } : Core D P).Inv := by
  obtain ⟨k, hbase, hunl, hloc⟩ := h.base
  have hr := hunl r hu
  have hfin : r.stage ≠ .finished := by
    rw [hst]
    nofun
  -- the writes were over before the flush
  have htodo : r.todo = [] := hr.stage.2.1 (by rw [hst]; nofun)
  refine ⟨⟨k, hbase.write (w := .pack r.snap.pack r.snap.cp) nofun rfl (.tail _ hbase.issued) rfl rfl rfl, ?_,
    fun l hl => h.waiting hu hfin hl rfl rfl⟩, fun p cp hm => ?_, (h.clean.commit _ _ _).runs hu rfl,
    fun v hv => ((h.saved v hv).commit _ _ _).runs hu rfl, nofun, h.idle⟩
  · rintro _ ⟨⟩
    refine ⟨hr.tag, hr.ver, fun _ => hr.newer hfin, ⟨nofun, fun _ => htodo, nofun⟩, hr.todo, hr.runs,
      fun hok b hb ht => ?_, nofun, fun _ => (hr.holds (.inl hst)).commit _ _ a,
      fun _ => ⟨.head _, fun hok => ?_⟩⟩
    · rw [(blocks_write_pack _ _ _).1]
      exact hr.landed (Bool.and_eq_true _ _ ▸ hok).1 b hb ht
    · rw [write, if_pos (Answer.lands_of_ok (Bool.and_eq_true _ _ ▸ hok).2)]
      exact List.mem_append_right _ (.head _)
  · rcases mem_pending_write hm with hm | he
    · exact absurd hm (h.no_packs (.inl hu) (by rw [hst]; exact .tail _ (.head _)) p cp)
    · obtain ⟨rfl, rfl⟩ := Write.pack.inj he
      exact ⟨_, .inl rfl, rfl, rfl, rfl⟩

/-- The closing flush of an unlocked checkpoint. -/
theorem closeUnlocked (hst : r.stage = .closing) :
    ({ c with
        disk := c.disk.flush true
        unlocked := some { r with stage := .finished }
        closed := if r.ok then r.snap :: c.closed else c.closed } : Core D P).Inv := by
  obtain ⟨k, hbase, hunl, hloc⟩ := h.base
  have hr := hunl r hu
  have hfin : r.stage ≠ .finished := by
    rw [hst]
    nofun
  have hnewer := hr.newer hfin
  -- after the flush the record is the base, or the old base has outlived a failed write
  obtain ⟨k', hbase'⟩ := hbase.close (fun _ _ => h.only (.inl hu) hst) (hr.issued hst)
    (hr.holds (.inr hst)) ⟨hnewer.1, hr.tag⟩ ⟨hnewer.2, hr.ver⟩
    (x := { c with
      disk := c.disk.flush true
      unlocked := some { r with stage := .finished }
      closed := if r.ok then r.snap :: c.closed else c.closed }) rfl rfl rfl rfl rfl
  have htodo : r.todo = [] := hr.stage.2.1 (by rw [hst]; nofun)
  refine ⟨⟨k', hbase', ?_, fun l hl => h.waiting hu hfin hl rfl rfl⟩, nofun,
    h.clean.flush.runs hu rfl, fun v hv => (h.saved v hv).flush.runs hu rfl, nofun, h.idle⟩
  · rintro _ ⟨⟩
    refine ⟨hr.tag, hr.ver, fun hne => absurd rfl hne, ⟨nofun, fun _ => htodo, nofun⟩, hr.todo, hr.runs,
      hr.landed, nofun, ?_, nofun⟩
    rintro (hx | hx) <;> contradiction

/-- Phase 3 of an unlocked checkpoint. -/
theorem phase3 (hst : r.stage = .finished)
    (hl : c.locked = none) (hs : c.saved = none) {back : List Nat}
    (hback : r.ok = true ∨ ∀ b ∈ c.wb, b ∉ c.dirty → b ∈ back) :
    ({ c with dirty := c.dirty ++ back, wb := c.wb.filter (· ∉ r.runs), unlocked := none } :
      Core D P).Inv := by
  obtain ⟨k, hbase, hunl, hloc⟩ := h.base
  have hr := hunl r hu
  have htodo : r.todo = [] := hr.stage.2.1 (by rw [hst]; nofun)
  -- the blocks that the cache holds for the run are the ones the run wrote
  have hempty : c.wb.filter (· ∉ r.runs) = [] := by
    rw [List.filter_eq_nil_iff]
    intro b hb
    simp [hr.runs b hb]
  refine ⟨⟨k, hbase.congr rfl rfl rfl le_rfl le_rfl, nofun, fun l hl' => ?_⟩, fun p cp hm => ?_,
    ⟨fun b hb _ => ?_, nofun⟩, fun v hv => ?_, fun _ => hempty, h.idle⟩
  · rw [hl] at hl'
    contradiction
  · obtain ⟨r', hr' | hr', hc, -⟩ := h.packs p cp hm
    · rw [Option.some.inj (hr'.symm.trans hu), hst] at hc
      contradiction
    · rw [hl] at hr'
      contradiction
  · rw [List.mem_append, not_or] at hb
    by_cases hw : b ∈ c.wb
    -- landed, or dirty again
    · rcases hback with hok | hback
      · exact (hr.landed hok b hw (by rw [htodo]; nofun)).trans (h.clean.pinned r hu b hw hb.1).symm
      · exact absurd (hback b hw hb.1) hb.2
    · exact h.clean.clean b hb.1 hw
  · rw [hs] at hv
    contradiction

end Core.Inv

end Leandros.F2fs
