import Leandros.Lib.Machine

/-!
# Leandros.F2fs.Checkpoint.Model

Checkpoints and fsync of the F2FS server (`servers/f2fs/src/lib.rs`), over a device with a
volatile write cache.

The block cache is a memory here: `mem` is what it returns for each block, `dirty` and `wb` are
the blocks whose slots have these flags. That a cache with slots, misses and evictions is such a
memory is what `Leandros.F2fs.Cache.Run` proves.

The contents `D` of a block are its bytes *apart from the access time of an inode*. With `lazytime`
a read stores a new access time into a cached block that stays clean (`touch_atime_relatime`
through `get_clean_mut`): it is on the device only if the block is written for another reason, and
an eviction drops it. So the cache and the device may differ there at any time, no checkpoint and no
`fsync` is about it, and nothing that is said of blocks below is said of access times.

A request holds `F2FS_MOUNTS` from `begin` to
`finish`; its stores, the moves of the allocator and its calls of `maybe_flush` are steps.
A checkpoint is either unlocked (it holds `CP_MUTEX`; phase 2 runs beside requests) or holds
`F2FS_MOUNTS` to its end; each of its writes and flushes is a step, and the device may refuse
any of them.

The last fields of a state are not the program's: they number snapshots and changes, and keep
what each checkpoint captured.
-/

namespace Leandros.F2fs

open Function (update)

/-! ### The device -/

/-- What a commit block records of `CpInfo`: the version, the allocator's position (`cp_pos`) and
`CP_UMOUNT_FLAG`. -/
structure CpInfo (P : Type) where
  ver : Nat
  pos : P
  umount : Bool

/-- A write of a block, on behalf of a snapshot, or of the commit block of a pack. -/
inductive Write (D P : Type)
  | block (b : Nat) (d : D) (tag : Nat)
  | pack (p : Bool) (cp : CpInfo P)

/-- The contents of a device. Pack 1 is `true`; `tags` is the snapshot that each block was last
written for. -/
structure Image (D P : Type) where
  blocks : Nat → D
  tags : Nat → Nat
  packs : Bool → CpInfo P

namespace Image

variable {D P : Type}

def write (img : Image D P) : Write D P → Image D P
  | .block b d tag =>
    { img with blocks := update img.blocks b d, tags := update img.tags b tag }
  | .pack p cp => { img with packs := update img.packs p cp }

def writes (img : Image D P) (ws : List (Write D P)) : Image D P := ws.foldl write img

/-- The pack that `mount` selects. -/
def active (img : Image D P) : Bool :=
  if (img.packs true).ver ≤ (img.packs false).ver then false else true

/-- The checkpoint that `mount` selects. -/
def cp (img : Image D P) : CpInfo P := img.packs img.active

end Image

/-- The device's answer to a write; one that is reported as failed may have been done. -/
inductive Answer
  | done
  | failed (lands : Bool)
  deriving DecidableEq

def Answer.ok : Answer → Bool
  | .done => true
  | .failed _ => false

def Answer.lands : Answer → Bool
  | .done => true
  | .failed lands => lands

/-- A device: what is on the medium, and the writes since the last flush. -/
structure Disk (D P : Type) where
  medium : Image D P
  pending : List (Write D P)

namespace Disk

variable {D P : Type}

/-- What reads of the device return. -/
def now (k : Disk D P) : Image D P := k.medium.writes k.pending

def write (k : Disk D P) (w : Write D P) (a : Answer) : Disk D P :=
  if a.lands then { k with pending := k.pending ++ [w] } else k

def flush (k : Disk D P) (ok : Bool) : Disk D P :=
  if ok then ⟨k.now, []⟩ else k

end Disk

/-! ### States -/

/-- `INO_MOD_SLOTS`. -/
def inoModSlots : Nat := 4096

/-- `ino_mod_idx`. -/
def inoModIdx (ino : Nat) : Nat :=
  (ino * 0x9E3779B97F4A7C15 % 2 ^ 64) / 2 ^ 52 % inoModSlots

/-- What a checkpoint captured: the volume, the changes in it, and its commit block. -/
structure Capture (D P : Type) where
  tag : Nat
  blocks : Nat → D
  upTo : Nat
  pack : Bool
  cp : CpInfo P

inductive Stage
  /-- A locked checkpoint waits for the writes of an unlocked one. -/
  | waiting
  | writing
  | committing
  | closing
  /-- The device writes are over. -/
  | finished
  deriving DecidableEq

/-- A checkpoint that runs. -/
structure Run (D P : Type) where
  /-- From `cp_seq_begin`. -/
  seq : Nat
  /-- The number of the checkpoint that fell back to this one. -/
  outer : Option Nat
  snap : Capture D P
  todo : List (Nat × D)
  /-- The blocks of the snapshot. -/
  runs : List Nat
  umount : Bool
  /-- No write was refused. -/
  ok : Bool
  stage : Stage
  who : Option Nat

/-- The request that holds `F2FS_MOUNTS`. -/
structure Request (D P : Type) where
  /-- `req_ino`. -/
  ino : Nat
  /-- The files it changes. -/
  files : List Nat
  /-- `req_marked`. -/
  marked : Bool
  /-- The request changed `dirtied` or `dirty_writes`. -/
  touched : Bool
  /-- What an undo restores, while it is possible. -/
  saved : Option ((Nat → D) × List Nat × P × Nat)

inductive CallStage
  | waiting
  | running
  | returned (ok : Bool)
  deriving DecidableEq

/-- A call of fsync, fdatasync or sync. -/
structure Call where
  need : Nat
  stage : CallStage
  /-- The changes that the call has to make durable. -/
  must : Nat
  /-- The device refused something that this call's checkpoint asked for. -/
  fault : Bool

structure Fs (D P : Type) where
  disk : Disk D P
  mem : Nat → D
  dirty : List Nat
  wb : List Nat
  dirtyWrites : Nat
  pos : P
  lastPos : Option P
  ver : Nat
  activePack : Bool
  readOnly : Bool
  /-- `FSYNCBATCH_ON`. -/
  batch : Bool
  started : Nat
  done : Nat
  inoMod : Nat → Nat
  modGlobal : Nat
  request : Option (Request D P)
  /-- The checkpoint with `CP_MUTEX`. -/
  unlocked : Option (Run D P)
  /-- The checkpoint with `F2FS_MOUNTS`. -/
  locked : Option (Run D P)
  calls : Nat → Option Call
  /-- The snapshots taken so far. -/
  tag : Nat
  /-- The changes made so far. -/
  clock : Nat
  /-- The last change of each file. -/
  changed : Nat → Nat
  /-- The volume after each change. -/
  history : Nat → Nat → D
  /-- The changes that were made when a checkpoint began. -/
  stamp : Nat → Nat
  /-- The checkpoints whose commit block was written. -/
  issued : List (Capture D P)
  /-- Those of which the device accepted every write and the closing flush. -/
  closed : List (Capture D P)

namespace Fs

variable {D P : Type}

/-! ### Requests -/

/-- `next_cp_seq`. -/
def nextCpSeq (s : Fs D P) : Nat := (s.started + 1) % 2 ^ 64

/-- `mark_changed_global`. -/
def markChangedGlobal (s : Fs D P) (q : Request D P) : Fs D P :=
  { s with modGlobal := max s.modGlobal s.nextCpSeq, request := some { q with marked := true } }

/-- `mark_changed`. -/
def markChanged (s : Fs D P) (q : Request D P) : Fs D P :=
  if q.ino ≠ 0 then
    { s with
      inoMod := update s.inoMod (inoModIdx q.ino)
        (max (s.inoMod (inoModIdx q.ino)) s.nextCpSeq)
      request := some { q with marked := true } }
  else s.markChangedGlobal q

/-- `maybe_flush`. -/
def maybeFlush (s : Fs D P) (q : Request D P) : Fs D P :=
  { s with dirtyWrites := min (s.dirtyWrites + 1) (2 ^ 32 - 1) }.markChanged { q with touched := true }

/-- `F2FS_MOUNTS` is free. -/
def unheld (s : Fs D P) : Bool := s.request.isNone && s.locked.isNone

/-- `with_mount`, with the file the request names by a descriptor (0: none) and those it
changes. -/
def begin (s : Fs D P) (ino : Nat) (files : List Nat) : Option (Fs D P) :=
  if s.unheld ∧ ¬ s.readOnly ∧ (ino ≠ 0 → ∀ f ∈ files, f = ino) then
    some
      { s with
        request := some ⟨ino, files, false, false, some (s.mem, s.dirty, s.pos, s.dirtyWrites)⟩ }
  else none

/-- A block of the cache is changed. -/
def store (s : Fs D P) (b : Nat) (d : D) : Option (Fs D P) :=
  s.request.map fun q =>
    { s with
      mem := update s.mem b d
      dirty := if b ∈ s.dirty then s.dirty else b :: s.dirty
      request := some { q with touched := true } }

/-- The allocator moves; it has marked a block in the SIT. -/
def alloc (s : Fs D P) (pos : P) : Option (Fs D P) :=
  s.request.bind fun q => if q.touched then some { s with pos := pos } else none

/-- The end of `tracked`. -/
def finish (s : Fs D P) : Option (Fs D P) :=
  s.request.map fun q =>
    let s := if q.marked || !q.touched then s else s.markChangedGlobal q
    if q.touched then
      { s with
        request := none
        clock := s.clock + 1
        changed := fun f => if f ∈ q.files then s.clock + 1 else s.changed f
        history := update s.history (s.clock + 1) s.mem }
    else { s with request := none }

/-- The end of a doomed run; it will run again. -/
def doom (s : Fs D P) : Option (Fs D P) :=
  s.request.bind fun q =>
    q.saved.map fun v =>
      { s with mem := v.1, dirty := v.2.1, pos := v.2.2.1, dirtyWrites := v.2.2.2, request := none }

/-- Phase 2 of an unlocked checkpoint is running. -/
def inflight (s : Fs D P) : Bool := s.unlocked.any fun r => r.stage != .finished

/-- `take_slot` finds every slot pinned: a block is written back in place and leaves the
cache. -/
def backstop (s : Fs D P) (b : Nat) (a : Answer) : Option (Fs D P) :=
  if s.locked.isNone ∧ (b ∈ s.dirty ∧ b ∉ s.wb ∨
      (∀ b' ∈ s.dirty, b' ∈ s.wb) ∧ ¬ s.inflight ∧ (b ∈ s.dirty ∨ b ∈ s.wb)) then
    some
      { s with
        disk := s.disk.write (.block b (s.mem b) (s.tag + 1)) a
        mem := if a.lands then s.mem else update s.mem b (s.disk.now.blocks b)
        dirty := s.dirty.filter (· ≠ b)
        wb := s.wb.filter (· ≠ b)
        request := s.request.map fun q => { q with saved := none } }
  else none

/-! ### fsync -/

/-- The start of `fsync_port`: of a file, or of the whole volume. -/
def arrive (s : Fs D P) (who : Nat) (file : Option Nat) : Option (Fs D P) :=
  let idle := (s.calls who).all fun c => c.stage != .waiting && c.stage != .running
  let next := s.nextCpSeq
  let need := match file with
    | some ino => if s.batch then min (max (s.inoMod (inoModIdx ino)) s.modGlobal) next else next
    | none => next
  let must := match file with
    | some ino => s.changed ino
    | none => s.clock
  if s.unheld ∧ idle then
    some { s with calls := update s.calls who (some ⟨need, .waiting, must, false⟩) }
  else none

def setCall (s : Fs D P) (who : Option Nat) (f : Call → Call) : Fs D P :=
  match who with
  | some w => { s with calls := update s.calls w ((s.calls w).map f) }
  | none => s

def ret (s : Fs D P) (who : Option Nat) (ok : Bool) : Fs D P :=
  s.setCall who fun c => { c with stage := .returned ok }

/-- The call, if there is one, is waiting. -/
def waits (s : Fs D P) (who : Option Nat) : Bool :=
  match who with
  | some w => (s.calls w).any fun c => c.stage == .waiting
  | none => true

/-- A checkpoint that the call needs is complete. -/
def skip (s : Fs D P) (who : Nat) : Option (Fs D P) :=
  (s.calls who).bind fun c =>
    if c.stage = .waiting ∧ c.need ≤ s.done then some (s.ret (some who) true) else none

/-! ### Checkpoints -/

/-- `cp_seq_begin`. -/
def cpSeqBegin (s : Fs D P) : Fs D P :=
  { s with started := s.nextCpSeq, stamp := update s.stamp s.nextCpSeq s.clock }

/-- `cp_seq_done`. -/
def cpSeqDone (s : Fs D P) (seq : Nat) : Fs D P := { s with done := max s.done seq }

/-- Nothing changed since the last checkpoint. -/
def unchanged [DecidableEq P] (s : Fs D P) : Bool :=
  s.dirtyWrites == 0 && s.lastPos == some s.pos && s.dirty.isEmpty

/-- The blocks of a list, in order, with their contents. -/
def snapshot (s : Fs D P) (l : List Nat) : List (Nat × D) :=
  (l.insertionSort (· ≤ ·)).map fun b => (b, s.mem b)

/-- `build_cp_block`: the pack and the commit block. -/
def buildCpBlock (s : Fs D P) (umount : Bool) : (Bool × CpInfo P) × Fs D P :=
  let ver := (s.ver + 1) % 2 ^ 64
  ((!s.activePack, ⟨ver, s.pos, umount⟩), { s with ver := ver, activePack := !s.activePack })

/-- The start of `write_checkpoint`. -/
def writeCheckpoint (s : Fs D P) (umount : Bool) (who : Option Nat) (outer : Option Nat) : Fs D P :=
  let s := s.cpSeqBegin
  { s.setCall who fun c => { c with stage := .running } with
    locked := some
      { seq := s.started
        outer := outer
        snap := ⟨0, s.mem, s.clock, false, ⟨0, s.pos, umount⟩⟩
        todo := []
        runs := []
        umount := umount
        ok := true
        stage := .waiting
        who := who } }

/-- `flush_checkpoint`, for a caller that may not sleep. -/
def flushCheckpoint [DecidableEq P] (s : Fs D P) (who : Option Nat) : Option (Fs D P) :=
  if s.unheld ∧ s.waits who then
    if s.readOnly ∨ s.unchanged then some (s.ret who true)
    else some (s.writeCheckpoint false who none)
  else none

/-- Phase 1, with `CP_MUTEX` just taken; `memory`: there is memory for the snapshot. -/
def phase1 [DecidableEq P] (s : Fs D P) (who : Option Nat) (memory : Bool) : Option (Fs D P) :=
  if s.unlocked.isNone ∧ s.unheld ∧ s.waits who then
    if s.readOnly then some (s.ret who true)
    else
      let s := s.cpSeqBegin
      if s.unchanged then some ((s.cpSeqDone s.started).ret who true)
      else if ¬ memory then some (s.writeCheckpoint false who (some s.started))
      else
        let todo := s.snapshot s.dirty
        let r := s.buildCpBlock false
        let s := r.2
        some
          { s.setCall who fun c => { c with stage := .running } with
            dirty := []
            wb := s.dirty
            dirtyWrites := 0
            lastPos := some s.pos
            tag := s.tag + 1
            unlocked := some
              { seq := s.started
                outer := none
                snap := ⟨s.tag + 1, s.mem, s.clock, r.1.1, r.1.2⟩
                todo := todo
                runs := s.dirty
                umount := false
                ok := true
                stage := .writing
                who := who } }
  else none

/-- `flush_all` starts, when no unlocked checkpoint is writing. -/
def plan (s : Fs D P) : Option (Fs D P) :=
  s.locked.bind fun r =>
    if r.stage = .waiting ∧ ¬ s.inflight then
      some
        { s with
          tag := s.tag + 1
          locked := some
            { r with
              snap := { r.snap with tag := s.tag + 1 }
              todo := s.snapshot (s.dirty ++ s.wb.filter (· ∉ s.dirty))
              stage := .writing } }
    else none

/-- The running checkpoint of either kind. -/
def run (s : Fs D P) (locked : Bool) : Option (Run D P) := if locked then s.locked else s.unlocked

def setRun (s : Fs D P) (locked : Bool) (r : Option (Run D P)) : Fs D P :=
  if locked then { s with locked := r } else { s with unlocked := r }

/-- The device refused something. -/
def blame (s : Fs D P) (who : Option Nat) (ok : Bool) : Fs D P :=
  if ok then s else s.setCall who fun c => { c with fault := true }

/-- The next block of the snapshot is written; `flush_all` cleans its slot at once. -/
def write (s : Fs D P) (locked : Bool) (a : Answer) : Option (Fs D P) :=
  (s.run locked).bind fun r =>
    match r.stage, r.todo with
    | .writing, (b, d) :: todo =>
      let s := (s.setRun locked (some { r with todo := todo, ok := r.ok && a.ok })).blame r.who a.ok
      some
        { s with
          disk := s.disk.write (.block b d r.snap.tag) a
          dirty := if locked then s.dirty.filter (· ≠ b) else s.dirty
          wb := if locked then s.wb.filter (· ≠ b) else s.wb }
    | _, _ => none

/-- The flush before the commit block; a locked checkpoint then builds that block, an unlocked
one has it, and gives up if a write was refused. -/
def flush (s : Fs D P) (locked : Bool) (ok : Bool) : Option (Fs D P) :=
  (s.run locked).bind fun r =>
    match r.stage, r.todo with
    | .writing, [] =>
      let s := { s with disk := s.disk.flush ok }.blame r.who ok
      if locked then
        let c := s.buildCpBlock r.umount
        some (c.2.setRun true
          (some { r with stage := .committing, snap := { r.snap with pack := c.1.1, cp := c.1.2 } }))
      else
        some (s.setRun false (some { r with stage := if r.ok then .committing else .finished }))
    | _, _ => none

/-- The commit block is written. -/
def commit (s : Fs D P) (locked : Bool) (a : Answer) : Option (Fs D P) :=
  (s.run locked).bind fun r =>
    if r.stage = .committing then
      let s := (s.setRun locked (some { r with stage := .closing, ok := r.ok && a.ok })).blame r.who a.ok
      some
        { s with
          disk := s.disk.write (.pack r.snap.pack r.snap.cp) a
          issued := r.snap :: s.issued }
    else none

/-- The closing flush, and `cp_seq_done`. -/
def close (s : Fs D P) (locked : Bool) (ok : Bool) : Option (Fs D P) :=
  (s.run locked).bind fun r =>
    if r.stage = .closing then
      let s := { s with disk := s.disk.flush ok }.blame r.who ok
      let s := if r.ok && ok then { s with closed := r.snap :: s.closed } else s
      if locked then
        let s := s.cpSeqDone r.seq
        let s := match r.outer with
          | some seq => s.cpSeqDone seq
          | none => s
        some
          ({ s with
              locked := none
              dirtyWrites := 0
              lastPos := some s.pos
              readOnly := s.readOnly || r.umount }.ret r.who true)
      else
        let s := if r.ok then s.cpSeqDone r.seq else s
        some { s with unlocked := some { r with stage := .finished } }
    else none

/-- Phase 3: the snapshot is unpinned, and is dirty again if a write was refused. -/
def phase3 (s : Fs D P) : Option (Fs D P) :=
  s.unlocked.bind fun r =>
    if r.stage = .finished ∧ s.unheld then
      let back := if r.ok then [] else s.wb.filter fun b => decide (b ∈ r.runs ∧ b ∉ s.dirty)
      some
        ({ s with
            dirty := s.dirty ++ back
            wb := s.wb.filter (· ∉ r.runs)
            dirtyWrites := if r.ok then s.dirtyWrites else max s.dirtyWrites 1
            unlocked := none }.ret r.who r.ok)
    else none

end Fs

/-! ### The machine -/

inductive FsAction (D P : Type)
  | begin (ino : Nat) (files : List Nat)
  | store (b : Nat) (d : D)
  | alloc (pos : P)
  /-- `touch_atime_relatime`: an access time changes in a block that is not marked. -/
  | touchAtime (b : Nat)
  | maybeFlush
  /-- `namespace_changed`. -/
  | namespaceChanged
  | finish
  | doom
  | backstop (b : Nat) (a : Answer)
  | arrive (who : Nat) (file : Option Nat)
  | skip (who : Nat)
  | flushCheckpoint (who : Option Nat)
  /-- Unmount, remount read-only or shutdown. -/
  | umount
  | remountRw
  | phase1 (who : Option Nat) (memory : Bool)
  | plan
  | write (locked : Bool) (a : Answer)
  | flush (locked : Bool) (ok : Bool)
  | commit (locked : Bool) (a : Answer)
  | close (locked : Bool) (ok : Bool)
  | phase3

namespace Fs

variable {D P : Type} [DecidableEq P]

/-- The step an action takes, if it can be taken. -/
def step (s : Fs D P) : FsAction D P → Option (Fs D P)
  | .begin ino files => s.begin ino files
  | .store b d => s.store b d
  | .alloc pos => s.alloc pos
  -- No `D` has an access time, and neither `dirtied` nor `dirty_writes` counts the store.
  | .touchAtime _ => s.request.map fun _ => s
  | .maybeFlush => s.request.map s.maybeFlush
  | .namespaceChanged =>
    s.request.bind fun q => let s := s.maybeFlush q; s.request.map s.markChangedGlobal
  | .finish => s.finish
  | .doom => s.doom
  | .backstop b a => s.backstop b a
  | .arrive who file => s.arrive who file
  | .skip who => s.skip who
  | .flushCheckpoint who => s.flushCheckpoint who
  | .umount => if s.unheld ∧ ¬ s.readOnly then some (s.writeCheckpoint true none none) else none
  | .remountRw => if s.unheld then some { s with readOnly := false } else none
  | .phase1 who memory => s.phase1 who memory
  | .plan => s.plan
  | .write locked a => s.write locked a
  | .flush locked ok => s.flush locked ok
  | .commit locked a => s.commit locked a
  | .close locked ok => s.close locked ok
  | .phase3 => s.phase3

/-- A volume just mounted from an image. -/
structure Init (s : Fs D P) : Prop where
  pending : s.disk.pending = []
  mem : s.mem = s.disk.medium.blocks
  tags : s.disk.medium.tags = fun _ => 0
  clean : s.dirty = [] ∧ s.wb = [] ∧ s.dirtyWrites = 0
  pos : s.pos = s.disk.medium.cp.pos ∧ s.lastPos = none
  cp : s.ver = s.disk.medium.cp.ver ∧ s.activePack = s.disk.medium.active
  ver : ∀ p, (s.disk.medium.packs p).ver < 2 ^ 64
  seq : s.started = s.done ∧ s.started < 2 ^ 64
  marks : s.inoMod = (fun _ => 0) ∧ s.modGlobal = 0
  idle : s.request = none ∧ s.unlocked = none ∧ s.locked = none ∧ ∀ who, s.calls who = none
  fresh : s.tag = 0 ∧ s.clock = 0 ∧ s.changed = (fun _ => 0) ∧ s.history 0 = s.mem ∧ s.stamp = fun _ => 0
  issued : s.issued = [⟨0, s.mem, 0, s.activePack, s.disk.medium.cp⟩]
  closed : s.closed = s.issued

end Fs

end Leandros.F2fs
