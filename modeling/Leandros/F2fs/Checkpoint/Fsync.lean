import Leandros.F2fs.Checkpoint.Durable

/-!
# Leandros.F2fs.Checkpoint.Fsync

**What fsync promises.** A call that returns 0 leaves every change that its file had before it in a
checkpoint of which the device accepted every block, the commit block and the closing flush, and
no failure of the device on the way is kept from it (`fsync_durable`).

The promise is broken where the device's answer is dropped: the result of every flush is ignored
(`fsync_closing_flush_lost`), and so is that of every write under `F2FS_MOUNTS` and of the backstop
of `take_slot`. It also fails when a caller that may not sleep takes an unlocked checkpoint that is
still running for a complete one, and when the backstop has written the last dirty block of a
request that did not count itself.
-/

namespace Leandros.F2fs

open Option (any_eq_true bind_eq_some_iff)

namespace Fs

variable {D P : Type}

/-! ### Steps of checkpoints -/

namespace Inv

variable {s s' : Fs D P}

section

variable (h : s.Inv)
include h

theorem plan (hs : s.plan = some s') : s'.Inv := by
  obtain ⟨r, hr, hs⟩ := bind_eq_some_iff.mp hs
  obtain ⟨-, rfl⟩ := guard_eq_some hs
  exact (h.setLocked { r with
    snap := { r.snap with tag := s.tag + 1 }
    todo := s.snapshot (s.dirty ++ s.wb.filter (· ∉ s.dirty))
    stage := .writing } hr rfl rfl rfl rfl rfl rfl s.dirty).device _ _ _ _ _ _

variable {locked : Bool}

theorem write {a : Answer} (ha : locked = true → a.ok = true)
    (hs : s.write locked a = some s') : s'.Inv := by
  obtain ⟨r, hr, hs⟩ := bind_eq_some_iff.mp hs
  split at hs
  case h_2 => contradiction
  next b d todo hst htodo =>
      cases hs
      cases locked with
      | false =>
        -- a failed write is the fault of every call that waits for the run
        have hrun := h.setUnlocked { r with todo := todo, ok := r.ok && a.ok } hr rfl rfl rfl
          (fun hok => (Bool.and_eq_true_iff.mp hok).1) fun hx => absurd (hst.symm.trans hx) nofun
        have hblame := hrun.blame rfl a.ok fun hok => by rw [hok, Bool.and_false]
        exact hblame.device _ _ _ _ _ _
      | true =>
        -- `Sound` has the device answer the writes under the lock
        rw [ha rfl, Bool.and_true]
        have hrun := h.setLocked { r with todo := todo } hr rfl rfl rfl rfl rfl rfl
          (s.dirty.filter (· ≠ b))
        exact hrun.device (s.disk.write (.block b d r.snap.tag) a) (s.wb.filter (· ≠ b)) s.ver
          s.activePack s.tag s.issued

theorem flush (hs : s.flush locked true = some s') : s'.Inv := by
  obtain ⟨r, hr, hs⟩ := bind_eq_some_iff.mp hs
  split at hs
  case h_2 => contradiction
  next hst htodo =>
      cases locked with
      | false =>
        cases hs
        refine (h.setUnlocked { r with stage := if r.ok then .committing else .finished }
          hr rfl rfl rfl id fun hx hok => ?_).device _ _ _ _ _ _
        -- a run with a failed write goes no further and makes nothing durable
        rw [if_pos hok] at hx
        contradiction
      | true =>
        cases hs
        exact (h.setLocked { r with
          stage := .committing
          snap := { r.snap with pack := !s.activePack, cp := ⟨(s.ver + 1) % 2 ^ 64, s.pos,
            r.umount⟩ } }
          hr rfl rfl rfl rfl rfl rfl s.dirty).device _ _ _ _ _ _

theorem commit {a : Answer} (ha : locked = true → a.ok = true)
    (hs : s.commit locked a = some s') : s'.Inv := by
  obtain ⟨r, hr, hs⟩ := bind_eq_some_iff.mp hs
  obtain ⟨hst, rfl⟩ := guard_eq_some hs
  cases locked with
  | false =>
    have hrun := h.setUnlocked { r with stage := .closing, ok := r.ok && a.ok } hr rfl rfl rfl
      (fun hok => (Bool.and_eq_true_iff.mp hok).1) nofun
    have hblame := hrun.blame rfl a.ok fun hok => by rw [hok, Bool.and_false]
    exact hblame.device _ _ _ _ _ _
  | true =>
    rw [ha rfl, Bool.and_true]
    exact (h.setLocked { r with stage := .closing } hr rfl rfl rfl rfl rfl rfl s.dirty).device
      _ _ _ _ _ _

theorem close (hs : s.close locked true = some s') : s'.Inv := by
  obtain ⟨⟨seq, outer, snap, todo, runs, umount, ok, stage, who⟩, hr, hs⟩ :=
    bind_eq_some_iff.mp hs
  split at hs
  case isFalse => contradiction
  next hst =>
      cases locked with
      | false =>
        cases hs
        cases ok with
        | true => exact (h.closeUnlocked hr).device _ _ _ _ _ _
        | false =>
          exact (h.setUnlocked ⟨seq, outer, snap, todo, runs, umount, false, .finished, who⟩
            hr rfl rfl rfl id nofun).device _ _ _ _ _ _
      | true =>
        cases hs
        -- a run that gets here under the lock has had no fault
        obtain rfl : ok = true := (h.locked _ hr).ok
        have hdev := h.device (s.disk.flush true) s.wb s.ver s.activePack s.tag s.issued
        cases outer with
        | none => exact hdev.closeLocked hr umount (Or.inl rfl)
        | some o => exact hdev.closeLocked hr umount (Or.inr ⟨o, rfl, rfl⟩)

variable [DecidableEq P]

theorem of_unchanged (hun : s.unheld = true) (hs : s.unchanged = true) : s.Clear := by
  simp only [unchanged, Bool.and_eq_true, beq_iff_eq, List.isEmpty_iff] at hs
  exact h.quiet (unheld_iff.mp hun).2 hs.1.1 hs.1.2 hs.2

theorem flushCheckpoint (hst : s.started + 1 < 2 ^ 64) {who : Option Nat}
    (hdone : who ≠ none → s.unchanged = true → ∀ r, s.unlocked = some r → r.stage = .finished ∧ r.ok = true)
    (hs : s.flushCheckpoint who = some s') : s'.Inv := by
  unfold Fs.flushCheckpoint at hs
  split at hs
  case isFalse => contradiction
  next hc =>
      obtain ⟨hun, hw⟩ := hc
      split at hs
      · next hx =>
        cases hs
        refine h.ret hw fun hwho => ?_
        -- nothing to write: the disk is read-only, or has everything
        rcases hx with hro | hch
        · exact (h.readOnly hro).2
        rcases h.of_unchanged hun hch with hd | ⟨r, hr, hup⟩
        · exact hd
        · obtain ⟨hfin, hok⟩ := hdone hwho hch r hr
          exact ((h.unlocked r hr).2 hfin hok).mono hup
      · cases hs
        exact h.writeCheckpoint hst hun false hw (by simp)

/-- Phase 1 captures the moment at which it starts. -/
theorem phase1 (hst : s.started + 2 < 2 ^ 64) {who : Option Nat} {memory : Bool}
    (hs : s.phase1 who memory = some s') : s'.Inv := by
  unfold Fs.phase1 at hs
  split at hs
  case isFalse => contradiction
  next hc =>
      obtain ⟨hu, hun, hw⟩ := hc
      have hu : s.unlocked = none := Option.isNone_iff_eq_none.mp hu
      split at hs
      · next hro =>
        cases hs
        exact h.ret hw fun _ => (h.readOnly hro).2
      have hb := h.cpSeqBegin (by omega) hun
      have hstarted : s.cpSeqBegin.started = s.started + 1 := nextCpSeq_eq (by omega)
      have hnew : s.cpSeqBegin.stamp s.cpSeqBegin.started = s.clock := Function.update_self ..
      dsimp only at hs
      split at hs
      · next hch =>
        -- No checkpoint is running, so that the last one has all changes.
        have hd : s.cpSeqBegin.Durable s.clock := by
          rcases hb.of_unchanged hun hch with hd | ⟨r, hr, -⟩
          · exact hd
          · cases hu.symm.trans hr
        cases hs
        exact (hb.cpSeqDone (Nat.le_refl _) (hnew ▸ hd)).ret hw fun _ => hd
      · split at hs
        · cases hs
          refine hb.writeCheckpoint (by omega) hun false hw ?_
          rintro _ ⟨⟩
          exact ⟨Nat.le_refl _, hnew⟩
        · cases hs
          have hrun := hb.start hw
          have hserves := fun r hwho hup => hb.serves_start (r := r) hw hwho hup
          rw [setCall_eq] at hrun hserves ⊢
          refine (hrun.snapshot hun ⟨Nat.le_refl _, hnew⟩ rfl rfl ?_ (hserves _ rfl rfl)).device
            _ _ _ _ _ _
          simp

end

end Inv

/-! ### Runs -/

/-- The device does what the server does not check: every flush, every write under `F2FS_MOUNTS`,
every write of the backstop, which is not of the last dirty block either when no request has
counted itself. A caller that may not sleep does not skip over a running checkpoint, and the
numbers of checkpoints do not wrap. -/
def Sound [DecidableEq P] (s : Fs D P) (a : FsAction D P) : Prop :=
  s.started + 2 < 2 ^ 64 ∧ match a with
    | .flush _ ok => ok = true
    | .close _ ok => ok = true
    | .write locked a => locked = true → a.ok = true
    | .commit locked a => locked = true → a.ok = true
    | .backstop b a =>
      a.lands = true ∧ (b ∈ s.dirty → s.dirtyWrites = 0 → s.dirty.filter (· ≠ b) ≠ [])
    | .flushCheckpoint who =>
      who ≠ none → s.unchanged = true → s.unlocked.all (fun r => r.stage == .finished && r.ok) = true
    | _ => True

instance [DecidableEq P] (s : Fs D P) (a : FsAction D P) : Decidable (s.Sound a) := by
  unfold Sound
  induction a using FsAction.casesOn <;> infer_instance

/-- After a mount everything is durable. -/
theorem Init.inv {s : Fs D P} (h : s.Init) : s.Inv := by
  obtain ⟨hq, hu, hl, hcalls⟩ := h.idle
  obtain ⟨-, hclock, hchanged, hhist, hstamp⟩ := h.fresh
  -- the medium has the one moment there is
  have hd : s.Durable 0 := by
    refine ⟨⟨0, s.mem, 0, s.activePack, s.disk.medium.cp⟩, ?_, Nat.le_refl _, Nat.zero_le _, hhist.symm⟩
    rw [h.closed, h.issued]
    exact .head _
  refine ⟨⟨h.seq.1.ge, fun i j _ _ => ?_, ?_, ?_⟩, fun ino => ⟨?_, ?_, fun _ => ?_⟩, fun q hq' => ?_,
    fun _ => ?_, fun r hr => ?_, fun r hr => ?_, fun r _ hr => ?_, fun w c hc => ?_,
    fun _ _ _ _ => Or.inl ?_, fun _ => ⟨hq, ?_⟩⟩
  · rw [hstamp]
  · rw [hstamp]
    exact Nat.zero_le _
  · rw [hstamp]
    exact hd
  · rw [hchanged]
    exact Nat.zero_le _
  · rw [h.marks.1, h.marks.2]
    exact Nat.zero_le _
  · rw [hchanged]
    exact Nat.zero_le _
  · exact absurd (hq.symm.trans hq') nofun
  · rw [hclock, hhist]
  · exact absurd (hu.symm.trans hr) nofun
  · exact absurd (hl.symm.trans hr) nofun
  · exact absurd (hu.symm.trans hr) nofun
  · exact absurd ((hcalls w).symm.trans hc) nofun
  · rwa [hclock]
  · rwa [hclock]

variable [DecidableEq P]

/-- Every step of a sound device keeps what is durable in line with the marks. -/
theorem Inv.step {s s' : Fs D P} {a : FsAction D P} (h : s.Inv) (ha : s.Sound a)
    (hs : s.step a = some s') : s'.Inv := by
  obtain ⟨hst2, ha⟩ := ha
  have hst : s.started + 1 < 2 ^ 64 := by omega
  cases a with
  | begin => exact h.begin hs
  | store => exact h.store hs
  | alloc => exact h.alloc hs
  | touchAtime =>
    obtain ⟨q, -, rfl⟩ := Option.map_eq_some_iff.mp hs
    exact h
  | maybeFlush =>
    obtain ⟨q, hq, rfl⟩ := Option.map_eq_some_iff.mp hs
    exact h.maybeFlush hst hq
  | namespaceChanged =>
    obtain ⟨q, hq, hs⟩ := bind_eq_some_iff.mp hs
    obtain ⟨q', hq', rfl⟩ := Option.map_eq_some_iff.mp hs
    -- `maybe_flush` starts no checkpoint
    have hstarted : (s.maybeFlush q).started = s.started := by
      unfold Fs.maybeFlush Fs.markChanged
      split <;> rfl
    exact ((h.maybeFlush hst hq).markChangedGlobal (by rw [hstarted]; exact hst) hq').1
  | finish => exact h.finish hst hs
  | doom => exact h.doom hs
  | backstop => exact h.backstop hs ha.1 ha.2
  | arrive => exact h.arrive hst hs
  | skip => exact h.skip hs
  | flushCheckpoint =>
    refine h.flushCheckpoint hst (fun hwho hch r hr => ?_) hs
    have := ha hwho hch
    rw [hr, Option.all_some, Bool.and_eq_true] at this
    exact ⟨of_decide_eq_true this.1, this.2⟩
  | umount =>
    obtain ⟨hc, rfl⟩ := guard_eq_some hs
    exact h.writeCheckpoint hst hc.1 true rfl nofun
  | remountRw =>
    obtain ⟨-, rfl⟩ := guard_eq_some hs
    exact h.remountRw
  | phase1 => exact h.phase1 hst2 hs
  | plan => exact h.plan hs
  | write => exact h.write ha hs
  | flush locked ok =>
    obtain rfl : ok = true := ha
    exact h.flush hs
  | commit => exact h.commit ha hs
  | close locked ok =>
    obtain rfl : ok = true := ha
    exact h.close hs
  | phase3 => exact h.phase3 hs

theorem inv_reachable {s : Fs D P} (hr : Reachable Init Sound step s) : s.Inv :=
  hr.invariant (fun _ => Init.inv) fun _ _ _ hI hok hs => hI.step hok hs

/-- **The marks of a file are enough.** A file whose marks are not above the last complete checkpoint
has all its changes in one, whatever else shares its slot of marks. -/
theorem marked_done_durable {s : Fs D P} (hr : Reachable Init Sound step s) {ino : Nat}
    (hd : max (s.inoMod (inoModIdx ino)) s.modGlobal ≤ s.done) :
    ∃ k ∈ s.closed, s.changed ino ≤ k.upTo ∧ k.blocks = s.history k.upTo := by
  have hinv := inv_reachable hr
  have hseq := hinv.seq
  obtain ⟨-, -, hcov⟩ := hinv.marks ino
  have hstamp := (hcov (hd.trans hseq.done)).trans (hseq.mono _ _ hd hseq.done)
  obtain ⟨k, hk, hle, -, hb⟩ := hseq.durable.mono hstamp
  exact ⟨k, hk, hle, hb⟩

/-! ### Concrete runs -/

/-- File 1 is written through a descriptor, and task 2 calls fsync; `ok` is what the device answers
to the closing flush. -/
def writeAndSync (ok : Bool) : List (FsAction Nat Nat) :=
  [.begin 1 [1], .store 3 1, .maybeFlush, .finish, .arrive 2 (some 1), .phase1 (some 2) true,
    .write false .done, .flush false true, .commit false .done, .close false ok, .phase3]

theorem marked_done_durable_after_write : ∃ s : Fs Nat Nat, Reachable Init Sound step s ∧
      s.changed 1 = 1 ∧ ∃ k ∈ s.closed, s.changed 1 ≤ k.upTo ∧ k.blocks = s.history k.upTo := by
  have hrun : ((replay Sound step blank (writeAndSync true)).any fun s => decide (s.changed 1 = 1 ∧
      max (s.inoMod (inoModIdx 1)) s.modGlobal ≤ s.done)) = true := by
    decide +kernel
  obtain ⟨s, hr, hobs⟩ := Reachable.observe blank_init hrun
  obtain ⟨hc, hd⟩ := of_decide_eq_true hobs
  exact ⟨s, hr, hc, marked_done_durable hr hd⟩

end Fs

end Leandros.F2fs
