import Leandros.F2fs.Checkpoint.Crash

/-!
# Leandros.F2fs.Checkpoint.Recovery

**Falling back to a checkpoint.** Every step of the server keeps the invariant of
`Leandros.F2fs.Checkpoint.Crash`. After a crash, `mount` selects a checkpoint that was issued,
never one older than the last complete one, and finds what it captured, if no surviving write of a
later snapshot overwrote a block of it (`crash_falls_back`).

Such writes are the defect. A checkpoint writes the blocks of its snapshot over the old ones,
in the places where the last checkpoint has them, before its own commit block: a crash between
the two leaves a mixture (`crash_mixes_checkpoints`).
-/

namespace Leandros.F2fs

open Option (any_eq_true bind_eq_some_iff bind_some isSome_some map_eq_some_iff map_none map_some)

namespace Fs

variable {D P : Type}

/-! ### What does not matter to the device -/

theorem setCall_eq (s : Fs D P) (who : Option Nat) (f : Call → Call) : s.setCall who f =
      { s with calls := fun w => if who = some w then (s.calls w).map f else s.calls w } := by
  cases who with
  | none => rfl
  | some w =>
    rw [setCall]
    congr 1
    funext w'
    by_cases hw : w' = w
    · subst hw
      rw [Function.update_self, if_pos rfl]
    · rw [Function.update_of_ne hw, if_neg fun he => hw (Option.some.inj he).symm]

theorem blame_eq (s : Fs D P) (who : Option Nat) (ok : Bool) : s.blame who ok =
      { s with
        calls := fun w =>
          if ok = false ∧ who = some w then (s.calls w).map fun c => { c with fault := true }
          else s.calls w } := by
  cases ok with
  | true => rfl
  | false =>
    simp [blame, setCall_eq]

@[simp] theorem core_ret (s : Fs D P) (who : Option Nat) (ok : Bool) : (s.ret who ok).core = s.core := by
  rw [ret, setCall_eq]
  rfl

variable {s s' : Fs D P} {q : Request D P} {a : Answer} {locked : Bool}

theorem core_markChangedGlobal
    (hq : s.request.map Request.saved = some q.saved) : (s.markChangedGlobal q).core = s.core := by
  obtain ⟨q', hq', hs⟩ := map_eq_some_iff.mp hq
  simp [core, markChangedGlobal, hq', hs]

theorem core_markChanged
    (hq : s.request.map Request.saved = some q.saved) : (s.markChanged q).core = s.core := by
  unfold markChanged
  split
  · obtain ⟨q', hq', hs⟩ := map_eq_some_iff.mp hq
    simp [core, hq', hs]
  · exact core_markChangedGlobal hq

theorem core_maybeFlush (hq : s.request = some q) : (s.maybeFlush q).core = s.core := by
  have hq' : s.request.map Request.saved = some q.saved := by rw [hq, map_some]
  exact core_markChanged hq'

theorem mem_snapshot {l : List Nat} {b : Nat} {d : D} :
    (b, d) ∈ s.snapshot l ↔ b ∈ l ∧ d = s.mem b := by
  simp only [snapshot, List.mem_map, List.mem_insertionSort, Prod.mk.injEq]
  constructor
  · rintro ⟨_, hm, rfl, rfl⟩
    exact ⟨hm, rfl⟩
  · rintro ⟨hm, rfl⟩
    exact ⟨b, hm, rfl, rfl⟩

theorem unheld_iff : s.unheld = true ↔ s.request = none ∧ s.locked = none := by
  simp [unheld]

theorem of_not_inflight (h : ¬ s.inflight = true) {r : Run D P}
    (hr : s.unlocked = some r) : r.stage = .finished := by
  simpa [inflight, hr] using h

/-! ### Steps -/

section

variable (h : s.core.Inv)
include h

theorem core_begin {ino : Nat} {files : List Nat}
    (hs : s.begin ino files = some s') : s'.core.Inv := by
  obtain ⟨⟨hu, -⟩, rfl⟩ := guard_eq_some hs
  obtain ⟨-, hl⟩ := unheld_iff.mp hu
  refine h.memory hl nofun h.clean ?_
  rintro _ ⟨⟩
  exact h.clean

theorem core_store {b : Nat} {d : D} (hs : s.store b d = some s') : s'.core.Inv := by
  obtain ⟨q, hq, rfl⟩ := map_eq_some_iff.mp hs
  have hcore : s.core.held = true := by simp [core, hq]
  have := h.store hcore b d
  simpa only [core, hq, isSome_some, bind_some] using this

theorem core_alloc {pos : P} (hs : s.alloc pos = some s') : s'.core.Inv := by
  obtain ⟨q, -, hs⟩ := bind_eq_some_iff.mp hs
  obtain ⟨-, rfl⟩ := guard_eq_some hs
  exact h

theorem core_finish (hs : s.finish = some s') : s'.core.Inv := by
  obtain ⟨q, hq, rfl⟩ := map_eq_some_iff.mp hs
  have hl : s.core.locked = none := h.unlocked_of_held (by simp [core, hq])
  -- What the end of a request leaves of the state.
  have hend : ({ s.core with held := false, saved := none } : Core D P).Inv :=
    h.memory hl (fun _ => rfl) h.clean nofun
  cases q.marked || !q.touched <;> cases q.touched <;> exact hend

theorem core_doom (hs : s.doom = some s') : s'.core.Inv := by
  obtain ⟨q, hq, hs⟩ := bind_eq_some_iff.mp hs
  obtain ⟨v, hv, rfl⟩ := map_eq_some_iff.mp hs
  refine h.memory (h.unlocked_of_held (by simp [core, hq])) (fun _ => rfl) ?_ nofun
  exact h.saved (v.1, v.2.1) (by simp [core, hq, hv])

theorem core_backstop {b : Nat} (hs : s.backstop b a = some s') : s'.core.Inv := by
  obtain ⟨⟨hl, hb⟩, rfl⟩ := guard_eq_some hs
  have hwait : b ∈ s.wb → ∀ r, s.unlocked = some r → r.stage = .finished := by
    intro hw r hr
    rcases hb with ⟨-, hn⟩ | ⟨-, hi, -⟩
    · exact absurd hw hn
    · exact of_not_inflight hi hr
  have hcore := h.backstop (Option.isNone_iff_eq_none.mp hl) a hwait
  cases hq : s.request with
  | none => simpa only [core, hq, map_none, Option.bind_none, Option.isSome_none] using hcore
  | some => simpa only [core, hq, map_some, bind_some, isSome_some, map_none] using hcore

theorem core_writeCheckpoint (hu : s.unheld = true) (umount : Bool)
    (who outer : Option Nat) : (s.writeCheckpoint umount who outer).core.Inv := by
  obtain ⟨hq, hl⟩ := unheld_iff.mp hu
  unfold writeCheckpoint
  dsimp only
  rw [setCall_eq]
  exact h.lock hl (by simp [core, hq]) rfl rfl

/-- The snapshot of phase 1, or one of the ways round it. -/
theorem core_phase1 [DecidableEq P] {who : Option Nat} {memory : Bool}
    (hver : s.ver + 1 < 2 ^ 64) (hs : s.phase1 who memory = some s') : s'.core.Inv := by
  unfold phase1 at hs
  split at hs
  case isFalse => contradiction
  next hc =>
      obtain ⟨hu, hun, -⟩ := hc
      obtain ⟨hq, hl⟩ := unheld_iff.mp hun
      split at hs
      · -- a read-only mount has nothing to write
        cases hs
        rwa [core_ret]
      dsimp only at hs
      split at hs
      · -- nor has one that nothing changed
        cases hs
        rw [core_ret]
        exact h
      split at hs
      · -- no memory for the snapshot: the whole checkpoint runs under the lock
        cases hs
        exact core_writeCheckpoint (s := s.cpSeqBegin) h hun _ _ _
      cases hs
      rw [setCall_eq]
      have hsaved : s.core.saved = none := by simp [core, hq]
      -- the snapshot is the dirty blocks as they are now
      refine h.phase1 (Option.isNone_iff_eq_none.mp hu) hl hsaved ?_ rfl rfl rfl rfl rfl
        fun b d => mem_snapshot
      change s.ver < (s.ver + 1) % 2 ^ 64
      omega

theorem core_plan (hs : s.plan = some s') : s'.core.Inv := by
  obtain ⟨r, hr, hs⟩ := bind_eq_some_iff.mp hs
  obtain ⟨⟨hw, hi⟩, rfl⟩ := guard_eq_some hs
  refine h.plan hr hw (fun u hu => of_not_inflight hi hu) fun b d => ?_
  rw [mem_snapshot, List.mem_append, List.mem_filter, decide_eq_true_eq]
  tauto

theorem core_write
    (ha : locked = true → a.ok = true) (hs : s.write locked a = some s') : s'.core.Inv := by
  obtain ⟨r, hr, hs⟩ := bind_eq_some_iff.mp hs
  split at hs
  case h_2 => contradiction
  next b d todo hst htodo =>
      cases hs
      rw [blame_eq]
      cases locked with
      | false => exact h.writeUnlocked hr hst htodo a
      | true => exact h.writeLocked hr hst htodo (ha rfl)

theorem core_flush
    (hver : locked = true → s.ver + 1 < 2 ^ 64) (hs : s.flush locked true = some s') :
    s'.core.Inv := by
  obtain ⟨r, hr, hs⟩ := bind_eq_some_iff.mp hs
  split at hs
  case h_2 => contradiction
  next hst htodo =>
      cases locked with
      | false =>
        cases hs
        exact h.flushUnlocked hr hst htodo
      | true =>
        cases hs
        refine h.flushLocked hr hst htodo ?_ _ rfl
        change s.ver < (s.ver + 1) % 2 ^ 64
        have := hver rfl
        omega

theorem core_commit (hs : s.commit locked a = some s') : s'.core.Inv := by
  obtain ⟨r, hr, hs⟩ := bind_eq_some_iff.mp hs
  obtain ⟨hst, rfl⟩ := guard_eq_some hs
  rw [blame_eq]
  cases locked with
  | false => exact h.commitUnlocked hr hst a
  | true => exact h.commitLocked hr hst a

theorem core_close (hs : s.close locked true = some s') : s'.core.Inv := by
  obtain ⟨⟨seq, outer, snap, todo, runs, umount, ok, stage, who⟩, hr, hs⟩ :=
    bind_eq_some_iff.mp hs
  split at hs
  case isFalse => contradiction
  next hst =>
      cases locked with
      | false =>
        cases hs
        cases ok <;> exact h.closeUnlocked hr hst
      | true =>
        cases hs
        rw [core_ret]
        cases ok <;> cases outer <;> exact h.closeLocked hr hst

theorem core_phase3 (hs : s.phase3 = some s') : s'.core.Inv := by
  obtain ⟨r, hr, hs⟩ := bind_eq_some_iff.mp hs
  obtain ⟨⟨hst, hun⟩, rfl⟩ := guard_eq_some hs
  obtain ⟨hq, hl⟩ := unheld_iff.mp hun
  rw [core_ret]
  refine h.phase3 hr hst hl (by simp [core, hq]) ?_
  obtain ⟨k, -, hunl, -⟩ := h.base
  cases hok : r.ok with
  | true => exact .inl rfl
  | false =>
    refine .inr fun b hb hd => List.mem_filter.mpr ⟨hb, ?_⟩
    simpa using ⟨(hunl r hr).runs b hb, hd⟩

end

/-! ### Runs -/

/-- The device flushes when told to, a checkpoint under `F2FS_MOUNTS` is refused no block, and the
version does not wrap. -/
def Honest (s : Fs D P) : FsAction D P → Prop
  | .write locked a => locked = true → a.ok = true
  | .flush locked ok => ok = true ∧ (locked = true → s.ver + 1 < 2 ^ 64)
  | .close _ ok => ok = true
  | .phase1 _ _ => s.ver + 1 < 2 ^ 64
  | _ => True

instance (s : Fs D P) (a : FsAction D P) : Decidable (s.Honest a) := by
  cases a <;> unfold Honest <;> infer_instance

/-- A mounted volume has one checkpoint, the one on the medium. -/
theorem Init.core (h : s.Init) : s.core.Inv := by
  obtain ⟨hq, hu, hl, -⟩ := h.idle
  obtain ⟨hd, hw, -⟩ := h.clean
  obtain ⟨htag, -⟩ := h.fresh
  have hmem : ⟨0, s.mem, 0, s.activePack, s.disk.medium.cp⟩ ∈ s.issued := by
    rw [h.issued]
    exact .head _
  -- what is mounted is the checkpoint that the medium has
  refine ⟨⟨_, ⟨hmem, rfl, ⟨fun b _ => congrFun h.mem.symm b, ?_⟩, fun k hk => ?_, fun p => ?_, ?_, ?_⟩,
    fun r hr => ?_, fun r hr => ?_⟩, ?_, ⟨fun b _ _ => ?_, fun r hr => ?_⟩, ?_, fun _ => hw, fun _ => ?_⟩
  · intro b d tag hm
    change _ ∈ s.disk.pending at hm
    rw [h.pending] at hm
    contradiction
  · change k ∈ s.closed at hk
    rw [h.closed, h.issued, List.mem_singleton] at hk
    rw [hk]
  · change (s.disk.medium.packs p).ver ≤ (s.disk.medium.packs s.disk.medium.active).ver
    unfold Image.active
    split <;> cases p <;> omega
  · exact h.cp.1.ge
  · exact Nat.zero_le _
  · exact absurd (hu.symm.trans hr) nofun
  · exact absurd (hl.symm.trans hr) nofun
  · intro p cp hm
    change _ ∈ s.disk.pending at hm
    rw [h.pending] at hm
    contradiction
  · change (s.disk.medium.writes s.disk.pending).blocks b = s.mem b
    rw [h.pending, h.mem]
    rfl
  · exact absurd (hu.symm.trans hr) nofun
  · simp [Fs.core, hq]
  · simp [Fs.core, hq]

variable [DecidableEq P]

/-- Every honest step keeps what a crash can be recovered from. -/
theorem core_step {a : FsAction D P} (h : s.core.Inv) (ha : s.Honest a)
    (hs : s.step a = some s') : s'.core.Inv := by
  cases a with
  | begin => exact core_begin h hs
  | store => exact core_store h hs
  | alloc => exact core_alloc h hs
  | touchAtime =>
    obtain ⟨q, -, rfl⟩ := map_eq_some_iff.mp hs
    exact h
  | maybeFlush =>
    obtain ⟨q, hq, rfl⟩ := map_eq_some_iff.mp hs
    rwa [core_maybeFlush hq]
  | namespaceChanged =>
    obtain ⟨q, hq, hs⟩ := bind_eq_some_iff.mp hs
    obtain ⟨q', hq', rfl⟩ := map_eq_some_iff.mp hs
    rwa [core_markChangedGlobal (by rw [hq', map_some]), core_maybeFlush hq]
  | finish => exact core_finish h hs
  | doom => exact core_doom h hs
  | backstop => exact core_backstop h hs
  | arrive | remountRw =>
    obtain ⟨-, rfl⟩ := guard_eq_some hs
    exact h
  | skip =>
    obtain ⟨c, -, hs⟩ := bind_eq_some_iff.mp hs
    obtain ⟨-, rfl⟩ := guard_eq_some hs
    rwa [core_ret]
  | flushCheckpoint =>
    simp only [step, flushCheckpoint] at hs
    split at hs
    case isFalse => contradiction
    next hc =>
        split at hs
        · cases hs
          rwa [core_ret]
        · cases hs
          exact core_writeCheckpoint h hc.1 _ _ _
  | umount =>
    obtain ⟨hc, rfl⟩ := guard_eq_some hs
    exact core_writeCheckpoint h hc.1 _ _ _
  | phase1 => exact core_phase1 h ha hs
  | plan => exact core_plan h hs
  | write => exact core_write h ha hs
  | flush =>
    obtain ⟨rfl, hver⟩ := ha
    exact core_flush h hver hs
  | commit => exact core_commit h hs
  | close locked ok =>
    obtain rfl : ok = true := ha
    exact core_close h hs
  | phase3 => exact core_phase3 h hs

theorem core_reachable {s : Fs D P} (hr : Reachable Init Honest step s) : s.core.Inv :=
  hr.invariant (fun _ => Init.core) fun _ _ _ hI hok hs => core_step hI hok hs

/-- **A crash falls back to a checkpoint, whole.** `view` is what can be read of a volume, from the
blocks `used`. Of the writes since the last flush the device has done those of `kept`; if none of
what it has is a later snapshot's write over a block that the selected checkpoint uses, the volume
is the one that checkpoint captured. -/
theorem crash_falls_back {V : Type} {view : (Nat → D) → P → V} {used : (Nat → D) → P → Nat → Prop}
    (hview : ∀ m m' pos, (∀ b, used m pos b → m' b = m b) → view m' pos = view m pos)
    {s : Fs D P} (hr : Reachable Init Honest step s) {kept : List (Write D P)}
    (hk : kept.Sublist s.disk.pending)
    (hover : ∀ k ∈ s.issued, (s.surviving kept).cp = k.cp → ∀ b, used k.blocks k.cp.pos b →
      (s.surviving kept).tags b ≤ k.tag) : ∃ k ∈ s.issued, (s.surviving kept).cp = k.cp ∧
      view (s.surviving kept).blocks (s.surviving kept).cp.pos = view k.blocks k.cp.pos ∧
      ∀ k' ∈ s.closed, k'.tag ≤ k.tag := by
  obtain ⟨k, hki, hcp, hsealed, hclosed⟩ := (core_reachable hr).crash hk
  change (s.surviving kept).cp = k.cp at hcp
  refine ⟨k, hki, hcp, ?_, hclosed⟩
  rw [hcp]
  exact hview _ _ _ fun b hb => hsealed.crash hk (hover k hki hcp b hb)

/-- **The cache and the device agree.** A block that is neither dirty nor in write-back reads from
the device as from the cache, one in write-back is as in the snapshot unless it was changed again,
and what an undo of the request restores agrees with the device too. -/
theorem clean_blocks_on_device {s : Fs D P} (hr : Reachable Init Honest step s) :
    (∀ b, b ∉ s.dirty → b ∉ s.wb → s.disk.now.blocks b = s.mem b) ∧
      (∀ r, s.unlocked = some r → ∀ b ∈ s.wb, b ∉ s.dirty → s.mem b = r.snap.blocks b) ∧
      ∀ q v, s.request = some q → q.saved = some v → ∀ b, b ∉ v.2.1 → b ∉ s.wb →
        s.disk.now.blocks b = v.1 b := by
  have hinv := core_reachable hr
  refine ⟨hinv.clean.clean, hinv.clean.pinned, fun q v hq hv => ?_⟩
  exact (hinv.saved (v.1, v.2.1) (by simp [core, hq, hv])).clean

/-- **One commit block is on its way.** Of the writes since the last flush at most one is of a commit
block, and that one is newer than both packs on the medium. -/
theorem one_commit_in_flight {s : Fs D P} (hr : Reachable Init Honest step s) {p : Bool}
    {cp : CpInfo P} (hp : .pack p cp ∈ s.disk.pending) :
    (∀ q, (s.disk.medium.packs q).ver < cp.ver) ∧
      ∀ p' cp', .pack p' cp' ∈ s.disk.pending → p' = p ∧ cp' = cp := by
  have hinv := core_reachable hr
  obtain ⟨k, hbase, hunl, hloc⟩ := hinv.base
  obtain ⟨r, hrun, hst, rfl, rfl⟩ := hinv.packs p cp hp
  refine ⟨fun q => (hbase.vers q).trans_lt ?_, fun _ _ => hinv.only hrun hst⟩
  rcases hrun with hu | hl
  · exact ((hunl r hu).newer (by rw [hst]; nofun)).2
  · exact ((hloc r hl).late (.inr hst)).2.2.2.1

/-! ### Concrete runs -/

/-- A volume of zeros, just mounted; a position is the next free block. -/
def blank : Fs Nat Nat where
  disk := ⟨⟨fun _ => 0, fun _ => 0, fun _ => ⟨0, 5, false⟩⟩, []⟩
  mem := fun _ => 0
  dirty := []
  wb := []
  dirtyWrites := 0
  pos := 5
  lastPos := none
  ver := 0
  activePack := false
  readOnly := false
  batch := true
  started := 0
  done := 0
  inoMod := fun _ => 0
  modGlobal := 0
  request := none
  unlocked := none
  locked := none
  calls := fun _ => none
  tag := 0
  clock := 0
  changed := fun _ => 0
  history := fun _ _ => 0
  stamp := fun _ => 0
  issued := [⟨0, fun _ => 0, 0, false, ⟨0, 5, false⟩⟩]
  closed := [⟨0, fun _ => 0, 0, false, ⟨0, 5, false⟩⟩]

theorem blank_init : blank.Init where
  pending := rfl
  mem := rfl
  tags := rfl
  clean := ⟨rfl, rfl, rfl⟩
  pos := ⟨rfl, rfl⟩
  cp := ⟨rfl, rfl⟩
  ver := fun _ => Nat.two_pow_pos 64
  seq := ⟨rfl, by decide⟩
  marks := ⟨rfl, rfl⟩
  idle := ⟨rfl, rfl, rfl, fun _ => rfl⟩
  fresh := ⟨rfl, rfl, rfl, rfl, rfl⟩
  issued := rfl
  closed := rfl

/-- Blocks 5 and 6 of a new file are written, and a checkpoint writes them. -/
def writeTwo : List (FsAction Nat Nat) :=
  [.begin 0 [1], .store 5 1, .alloc 6, .store 6 1, .alloc 7, .maybeFlush, .finish, .phase1 none true,
    .write false .done]

/-- The blocks before the position, and the position. -/
def below (m : Nat → Nat) (pos : Nat) : List Nat := (List.range pos).map m

/-- Both new blocks lie beyond what the last checkpoint uses: a crash that keeps one of them falls
back to that checkpoint. -/
theorem crash_falls_back_new_blocks :
    ∃ s : Fs Nat Nat, Reachable Init Honest step s ∧ s.disk.pending ≠ [] ∧
      ∃ k ∈ s.issued, (s.surviving s.disk.pending).cp = k.cp ∧
        below (s.surviving s.disk.pending).blocks (s.surviving s.disk.pending).cp.pos =
          below k.blocks k.cp.pos ∧ ∀ k' ∈ s.closed, k'.tag ≤ k.tag := by
  have hrun : ((replay Honest step blank writeTwo).any fun s =>
      !s.disk.pending.isEmpty && s.issued.all fun k => (List.range k.cp.pos).all fun b =>
        decide ((s.surviving s.disk.pending).tags b ≤ k.tag)) = true := by
    decide +kernel
  obtain ⟨s, hs, hobs⟩ := any_eq_true _ _ |>.mp hrun
  have hr : Reachable Init Honest step s := (Reachable.start blank_init).replay hs
  rw [Bool.and_eq_true, List.all_eq_true] at hobs
  refine ⟨s, hr, by simpa using hobs.1, ?_⟩
  have hview : ∀ m m' pos,
      (∀ b, (fun _ pos b => b < pos : (Nat → Nat) → Nat → Nat → Prop) m pos b → m' b = m b) →
        below m' pos = below m pos :=
    fun m m' pos h => List.map_congr_left fun b hb => h b (List.mem_range.mp hb)
  refine crash_falls_back hview hr (.refl _) fun k hk _ b hb => ?_
  · have := List.all_eq_true.mp (hobs.2 k hk) b (List.mem_range.mpr hb)
    simpa using this

theorem clean_blocks_on_device_writing : ∃ s : Fs Nat Nat, Reachable Init Honest step s ∧ s.wb ≠ [] ∧
      ∀ b, b ∉ s.dirty → b ∉ s.wb → s.disk.now.blocks b = s.mem b := by
  have hrun : ((replay Honest step blank writeTwo).any fun s => !s.wb.isEmpty) = true := by
    decide +kernel
  obtain ⟨s, hr, hobs⟩ := Reachable.observe blank_init hrun
  exact ⟨s, hr, by simpa using hobs, (clean_blocks_on_device hr).1⟩

theorem one_commit_in_flight_first : ∃ s : Fs Nat Nat, Reachable Init Honest step s ∧
      ∃ p cp, .pack p cp ∈ s.disk.pending ∧ ∀ q, (s.disk.medium.packs q).ver < cp.ver := by
  have hrun : ((replay Honest step blank (writeTwo ++ [.write false .done, .flush false true,
      .commit false .done])).any fun s => s.disk.pending.any (· matches .pack ..)) = true := by
    decide +kernel
  obtain ⟨s, hr, hobs⟩ := Reachable.observe blank_init hrun
  obtain ⟨w, hw, hobs⟩ := List.any_eq_true.mp hobs
  cases w with
  | block => contradiction
  | pack p cp => exact ⟨s, hr, p, cp, hw, (one_commit_in_flight hr hw).1⟩

/-- A request changes two blocks that the last checkpoint uses, as `link` changes a directory and
an inode. A crash keeps one of the two writes: the volume is that of no checkpoint. -/
theorem crash_mixes_checkpoints : ∃ s : Fs Nat Nat, Reachable Init Honest step s ∧
      ∃ kept : List (Write Nat Nat), kept.Sublist s.disk.pending ∧ ∀ k ∈ s.issued,
        below (s.surviving kept).blocks (s.surviving kept).cp.pos ≠ below k.blocks k.cp.pos := by
  have hrun : ((replay Honest step blank [.begin 0 [1], .store 3 1, .store 4 1, .maybeFlush, .finish,
      .phase1 none true, .write false .done]).any fun s =>
        s.issued.all fun k => decide (below (s.surviving s.disk.pending).blocks
          (s.surviving s.disk.pending).cp.pos ≠ below k.blocks k.cp.pos)) = true := by
    decide +kernel
  obtain ⟨s, hs, hobs⟩ := any_eq_true _ _ |>.mp hrun
  refine ⟨s, (Reachable.start blank_init).replay hs, _, .refl _, fun k hk => ?_⟩
  exact of_decide_eq_true (List.all_eq_true.mp hobs k hk)

end Fs

end Leandros.F2fs
