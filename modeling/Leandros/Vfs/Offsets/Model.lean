import Leandros.Lib.Machine

/-!
# Leandros.Vfs.Offsets.Model

The offsets of tmpfs files (`servers/vfs/src/lib.rs`): `TMP_OFDS`, and the `TmpFile` arms of
`handle_read`, `handle_write` and `handle_lseek` as the threads of all processes run them. An action is
one lock hold: the look-up in the descriptor table, the transfer under `TMP_FILES`, the store of the
offset under the table's lock again. `handle_lseek` keeps its table locked and takes `TMP_OFDS` and
`TMP_FILES` one after the other.

A call copies the descriptor at its first hold and goes by the *number* at its last one
(`tmp_pos_set`): by then the number may be closed, or stand for another description.

`open`, `close` and the copies of a descriptor (`dup`, `dup2` onto an open number, `fork`, `SCM_RIGHTS`)
are one action each. No file is cut short. The bytes of files are left out: a transfer is the range it
covers.
-/

namespace Leandros.Vfs.Offsets

open Function (update)

/-- `MAX_TMP_FILE_SIZE`. -/
def maxTmpFileSize : Nat := 2 ^ 34

/-- `TMP_READ_MAX`. -/
def tmpReadMax : Nat := 2 ^ 20

/-- `MAX_TMP_OFDS`. -/
def maxTmpOfds : Nat := 4096

/-- `FdEntry` with the kind `TmpFile { idx, pos, writable, ofd }`; `append` is the flag `O_APPEND`. The
open file description that the descriptor is a copy of is `desc`, which the code does not keep. -/
structure FdEntry where
  idx : Nat
  pos : Nat
  writable : Bool
  ofd : Nat
  append : Bool
  desc : Nat
  deriving DecidableEq

/-- What two copies of a descriptor have in common. -/
def FdEntry.fixed (e : FdEntry) : FdEntry := { e with pos := 0 }

/-- A process and a number in its table. -/
abbrev Slot := Nat × Nat

inductive Whence
  | set
  | cur
  | fromEnd
  | data
  | hole
  | other
  deriving DecidableEq

/-- How far a call has come. -/
inductive Phase
  /-- `handle_read` has copied the kind and the offset. -/
  | reading (cur count : Nat)
  /-- `handle_write` has copied the kind. -/
  | writing (count : Nat)
  /-- The bytes are moved, the offset is still to be stored. -/
  | storing (stop : Nat)
  /-- `handle_lseek` has the offset. -/
  | seeking (offset : Int) (whence : Whence) (cur : Nat)
  /-- `handle_lseek` has the new offset, beside the one it has found. -/
  | placing (cur pos : Nat)
  deriving DecidableEq

/-- A call in progress and the entry it has copied. -/
structure Call where
  slot : Slot
  entry : FdEntry
  phase : Phase

/-- The bytes from `start` up to `stop` of a file have been read, or written. -/
structure Transfer where
  write : Bool
  start : Nat
  stop : Nat
  deriving DecidableEq

def Transfer.Disjoint (x y : Transfer) : Prop := x.stop ≤ y.start ∨ y.stop ≤ x.start

structure State (T : Type) where
  fds : Slot → Option FdEntry
  /-- The tables that `handle_lseek` keeps locked. -/
  locked : Nat → Bool
  /-- `TMP_OFDS`. -/
  pos : Nat → Nat
  refs : Nat → Nat
  /-- The length of each file, and for a borrowed one the bytes that back it. -/
  len : Nat → Nat
  lent : Nat → Option Nat
  calls : T → Option Call
  /-- How many descriptions there have been. -/
  opened : Nat
  /-- The successful transfers of each description since `lseek` last moved its offset. -/
  transfers : Nat → List Transfer
  /-- The successful writes with `O_APPEND` to each file. -/
  appends : Nat → List Transfer
  /-- Where the last transfer to complete has ended, or `lseek` has put the offset since. -/
  last : Nat → Nat

inductive Action (T : Type)
  | openFile (p : Slot) (idx : Nat) (writable append : Bool)
  /-- What `q` stood for before is closed. -/
  | copy (p q : Slot)
  | close (p : Slot)
  | read (t : T) (p : Slot) (count : Nat)
  /-- `ok`: the caller's buffer took all bytes. -/
  | readTransfer (t : T) (ok : Bool)
  | write (t : T) (p : Slot) (count : Nat)
  /-- `done`: what `vmo_copy_in` returns. -/
  | writeTransfer (t : T) (done : Option Nat)
  | store (t : T)
  | lseek (t : T) (p : Slot) (offset : Int) (whence : Whence)
  /-- `sparse`: where `SEEK_DATA` or `SEEK_HOLE` have found what they look for. -/
  | seekLen (t : T) (sparse : Option Nat)
  | seekSet (t : T)

variable {T : Type}

namespace State

/-- `tmp_ofd_alloc`. -/
def tmpOfdAlloc (s : State T) : Nat :=
  ((List.range' 1 (maxTmpOfds - 1)).find? fun i => s.refs i = 0).getD 0

/-- `tmp_pos_get`. -/
def tmpPosGet (s : State T) (e : FdEntry) : Nat := if e.ofd ≠ 0 then s.pos e.ofd else e.pos

/-- `TMP_OFDS` with another offset for the description, if it has one there. -/
def setPos (s : State T) (ofd new : Nat) : Nat → Nat :=
  if ofd ≠ 0 then update s.pos ofd new else s.pos

/-- `tmp_pos_set` of the descriptor that now has the number. -/
def tmpPosSet (s : State T) (p : Slot) (new : Nat) : State T :=
  { s with
    fds := update s.fds p ((s.fds p).map fun e => { e with pos := new })
    pos := match s.fds p with
      | some e => s.setPos e.ofd new
      | none => s.pos }

/-- A new description at an offset, with `ofd` as its entry in `TMP_OFDS`. -/
def describe (s : State T) (ofd new : Nat) : State T :=
  { s with
    pos := s.setPos ofd new
    opened := s.opened + 1
    last := update s.last s.opened new }

/-- A descriptor gets a number, and its description one more reference (`tmp_ofd_get`). -/
def install (s : State T) (p : Slot) (e : FdEntry) : State T :=
  { s with
    fds := update s.fds p (some e)
    refs := if e.ofd ≠ 0 then update s.refs e.ofd ((s.refs e.ofd + 1) % 2 ^ 32) else s.refs }

/-- A number is free again, and its description has one reference less (`tmp_ofd_put`). -/
def remove (s : State T) (p : Slot) : State T :=
  { s with
    fds := update s.fds p none
    refs := match s.fds p with
      | some e => if e.ofd ≠ 0 then update s.refs e.ofd (s.refs e.ofd - 1) else s.refs
      | none => s.refs }

/-- Two's complement in 64 bits. -/
def i64 (x : Int) : Int := x.bmod (2 ^ 64)

/-- The offset that `handle_lseek` computes; `none` stands for its errors. -/
def seekTarget (offset : Int) (whence : Whence) (cur len : Nat) (sparse : Option Nat) : Option Nat :=
  let target : Option Int := match whence with
    | .set => some offset
    | .cur => some (i64 (i64 cur + offset))
    | .fromEnd => some (i64 (i64 len + offset))
    | .data | .hole => if 0 ≤ offset ∧ offset < len then sparse.map (↑) else none
    | .other => none
  (target.filter (0 ≤ ·)).map Int.toNat

section
variable [DecidableEq T]

def setCall (s : State T) (t : T) (c : Option Call) : State T :=
  { s with calls := update s.calls t c }

/-- The look-up at the start of a call, while nobody has the table locked. -/
def enter (s : State T) (t : T) (p : Slot) (f : FdEntry → Option Phase) : Option (State T) := do
  let e ← s.fds p
  let phase ← f e
  if (s.calls t).isNone ∧ s.locked p.1 = false then some (s.setCall t (some ⟨p, e, phase⟩)) else none

/-- A transfer of `stop - start` bytes; a write makes the file longer and moves the shared offset. -/
def transfer (s : State T) (t : T) (c : Call) (x : Transfer) : State T :=
  { s with
    calls := update s.calls t (some { c with phase := .storing x.stop })
    len := if x.write then update s.len c.entry.idx (max (s.len c.entry.idx) x.stop) else s.len
    pos := if x.write then s.setPos c.entry.ofd x.stop else s.pos
    transfers := update s.transfers c.entry.desc (x :: s.transfers c.entry.desc)
    appends := if x.write ∧ c.entry.append then
        update s.appends c.entry.idx (x :: s.appends c.entry.idx) else s.appends }

/-- The bytes a read returns: no more than a call may move, and of a borrowed file no more than is
there. -/
def readLen (s : State T) (idx cur count : Nat) : Nat :=
  let n := min (min count (s.len idx - cur)) tmpReadMax
  match s.lent idx with
  | some b => min n (b - cur)
  | none => n

/-- Where a write starts. -/
def writeStart (s : State T) (e : FdEntry) : Nat := if e.append then s.len e.idx else s.tmpPosGet e

/-- The offset is stored, at the end of a transfer or by `lseek`. -/
def store (s : State T) (t : T) (c : Call) (new : Nat) : State T :=
  { (s.tmpPosSet c.slot new).setCall t none with last := update s.last c.entry.desc new }

def unlock (s : State T) (t : T) (c : Call) : State T :=
  { s.setCall t none with locked := update s.locked c.slot.1 false }

def step (s : State T) : Action T → Option (State T)
  | .openFile p idx writable append =>
    let pos := if append then s.len idx else 0
    let ofd := s.tmpOfdAlloc
    if s.fds p = none ∧ s.locked p.1 = false then
      some ((s.describe ofd pos).install p ⟨idx, pos, writable, ofd, append, s.opened⟩)
    else none
  | .copy p q => do
      let e ← s.fds p
      if p ≠ q ∧ s.locked p.1 = false ∧ s.locked q.1 = false then some ((s.remove q).install q e) else none
  | .close p => if s.fds p ≠ none ∧ s.locked p.1 = false then some (s.remove p) else none
  | .read t p count => s.enter t p fun e => some (.reading (s.tmpPosGet e) count)
  | .readTransfer t ok => do
      let c ← s.calls t
      match c.phase with
      | .reading cur count =>
        let n := s.readLen c.entry.idx cur count
        if n = 0 ∨ ok = false then some (s.setCall t none)
        else some (s.transfer t c ⟨false, cur, cur + n⟩)
      | _ => none
  | .write t p count => s.enter t p fun e => if e.writable then some (.writing count) else none
  | .writeTransfer t done => do
      let c ← s.calls t
      match c.phase with
      | .writing count =>
        let cur := s.writeStart c.entry
        if maxTmpFileSize ≤ cur then some (s.setCall t none)
        else match done with
          | none => some (s.setCall t none)
          | some n =>
            let want := min count (maxTmpFileSize - cur)
            if n ≤ want ∧ (n = 0 → want = 0) then some (s.transfer t c ⟨true, cur, cur + n⟩)
            else none
      | _ => none
  | .store t => do
      let c ← s.calls t
      match c.phase with
      | .storing stop => if s.locked c.slot.1 = false then some (s.store t c stop) else none
      | _ => none
  | .lseek t p offset whence => do
      let s' ← s.enter t p fun e => some (.seeking offset whence (s.tmpPosGet e))
      some { s' with locked := update s.locked p.1 true }
  | .seekLen t sparse => do
      let c ← s.calls t
      match c.phase with
      | .seeking offset whence cur =>
        match seekTarget offset whence cur (s.len c.entry.idx) sparse with
        | some new => some (s.setCall t (some { c with phase := .placing cur new }))
        | none => some (s.unlock t c)
      | _ => none
  | .seekSet t => do
      let c ← s.calls t
      match c.phase with
      | .placing cur new =>
        some { s.store t c new with
          locked := update s.locked c.slot.1 false
          transfers := if new = cur then s.transfers else update s.transfers c.entry.desc [] }
      | _ => none

end

/-- At the start there are files and no descriptors. -/
structure Init (s : State T) : Prop where
  fds : s.fds = fun _ => none
  calls : s.calls = fun _ => none
  refs : s.refs = fun _ => 0
  opened : s.opened = 0
  transfers : s.transfers = fun _ => []
  appends : s.appends = fun _ => []

end State

end Leandros.Vfs.Offsets
