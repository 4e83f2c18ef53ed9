import Leandros.Lib.Machine

/-!
# Leandros.Vfs.Locks.Model

Advisory locks of the VFS server (`servers/vfs/src/lib.rs`, "Advisory file locking"): one table of
records for `fcntl` and `flock`, keyed by the vnode of a descriptor.

A vnode of a mounted volume is named by the slot of the mount's open-file table, which every `open`
takes anew, so that the key of a lock is not the identity of its file. The state has that table
beside the descriptors. Its last two fields are not the program's: they are what the lock state
would be under POSIX record locking alone and under `flock` alone.

`F_SETLKW` and `flock` without `LOCK_NB` try again every tick until nothing conflicts. The key and the
range are taken once, at the start: a try does not look at the descriptor again. Calls that wait are in
the state with the descriptor they have copied, and each try is an action of its own (`Action.retry`).
-/

namespace Leandros.Vfs.Locks

/-! ### Records -/

inductive LockKey
  | tmp (idx : Nat)
  | mount (port fileId : Nat)
  deriving DecidableEq

structure LockRecord where
  key : LockKey
  pid : Nat
  start : Nat
  /-- The bound `end`, which is not in the range; `2 ^ 64 - 1` is the end of the file. -/
  stop : Nat
  exclusive : Bool
  inUse : Bool
  deriving DecidableEq

def LockRecord.empty : LockRecord := ⟨.tmp 0, 0, 0, 0, false, false⟩

/-- `u64::MAX`. -/
def toEof : Nat := 2 ^ 64 - 1

/-- `MAX_LOCKS`. -/
def maxLocks : Nat := 2 ^ 16

/-- The first record that is not in use is replaced. -/
def replaceFree (r : LockRecord) : List LockRecord → Option (List LockRecord)
  | [] => none
  | l :: ls => if l.inUse then (replaceFree r ls).map (l :: ·) else some (r :: ls)

/-- `lock_insert`; `memory`: the table can grow. -/
def lockInsert (locks : List LockRecord) (r : LockRecord) (memory : Bool) : Option (List LockRecord) :=
  match replaceFree r locks with
  | some ls => some ls
  | none => if maxLocks ≤ locks.length ∨ ¬ memory then none else some (locks ++ [r])

def rangesOverlap (aStart aStop bStart bStop : Nat) : Bool :=
  decide (aStart < bStop) && decide (bStart < aStop)

/-- `find_conflict`. -/
def findConflict (locks : List LockRecord) (key : LockKey) (pid start stop : Nat) (exclusive : Bool) :
    Option LockRecord :=
  locks.find? fun l =>
    l.inUse && (l.key == key) && (l.pid != pid) && rangesOverlap l.start l.stop start stop &&
      (exclusive || l.exclusive)

/-- The loops that empty records. -/
def clearWhere (p : LockRecord → Bool) (locks : List LockRecord) : List LockRecord :=
  locks.map fun l => if l.inUse && p l then .empty else l

/-- `release_locks`. -/
def releaseLocks (locks : List LockRecord) (key : LockKey) (pid : Nat) : List LockRecord :=
  clearWhere (fun l => (l.key == key) && (l.pid == pid)) locks

/-- The records of a process that overlap a range. -/
def overlapping (key : LockKey) (pid start stop : Nat) (l : LockRecord) : Bool :=
  (l.key == key) && (l.pid == pid) && rangesOverlap l.start l.stop start stop

/-! ### Ranges -/

/-- `i64::checked_add`. -/
def checkedAdd (a b : Int) : Option Int :=
  if -2 ^ 63 ≤ a + b ∧ a + b < 2 ^ 63 then some (a + b) else none

/-- `as i64`. -/
def toI64 (n : Nat) : Int := if n % 2 ^ 64 < 2 ^ 63 then (n % 2 ^ 64 : Nat) else (n % 2 ^ 64 : Nat) - 2 ^ 64

/-- The vnode of a descriptor. The inode of a mounted file is known to the mount only. -/
inductive File
  | tmp (idx : Nat)
  | mount (port ino fileId : Nat)
  | other
  deriving DecidableEq

/-- `lock_key_of`. -/
def lockKeyOf : File → Option LockKey
  | .tmp idx => some (.tmp idx)
  | .mount port _ fileId => some (.mount port fileId)
  | .other => none

/-- `struct flock`, as far as it is read. -/
structure Flock where
  lType : Int
  whence : Int
  start : Int
  len : Int
  deriving DecidableEq

/-- `resolve_lock_range`, at offset `pos` of the descriptor and length `size` of the file. -/
def resolveLockRange (file : File) (pos size : Nat) (f : Flock) : Option (Nat × Nat) := do
  let base ← match f.whence with
    | 0 => some 0
    | 1 => match file with
      | .tmp _ => some (toI64 pos)
      | _ => none
    | 2 => match file with
      | .tmp _ => some (toI64 size)
      | _ => none
    | _ => none
  let start ← checkedAdd base f.start
  let start ← if f.len < 0 then checkedAdd start f.len else some start
  if start < 0 then none
  else
    let len := f.len.natAbs
    if len = 0 then some (start.toNat, toEof)
    else if start.toNat + len < 2 ^ 64 then some (start.toNat, start.toNat + len) else none

/-! ### Calls -/

inductive Reply
  | ok
  | err (code : Nat)
  /-- What `F_GETLK` writes back. -/
  | lock (lType start len pid : Nat)
  /-- None yet: the call waits. -/
  | wait
  deriving DecidableEq

inductive LockCmd
  | getlk
  | setlk
  | setlkw
  deriving DecidableEq

def fUnlck : Int := 2

def fWrlck : Int := 1

/-- Grant a lock if nothing conflicts: what the loops of `handle_fcntl_lock` and `handle_flock` do
each time around, with the records to drop. -/
def grant (locks : List LockRecord) (r : LockRecord) (drop : LockRecord → Bool) (memory : Bool) :
    Option (Reply × List LockRecord) :=
  match findConflict locks r.key r.pid r.start r.stop r.exclusive with
  | some _ => none
  | none =>
    let locks := clearWhere drop locks
    match lockInsert locks r memory with
    | some locks => some (.ok, locks)
    | none => some (.err 37, locks)

/-- What a call returns when nothing is granted: it fails, or it waits and tries again. -/
def orElse (locks : List LockRecord) (wait : Bool) :
    Option (Reply × List LockRecord) → Option (Reply × List LockRecord)
  | some r => some r
  | none => if wait then none else some (.err 11, locks)

/-- `handle_fcntl_lock`; `none` while the call waits. -/
def handleFcntlLock (locks : List LockRecord) (pid : Nat) (file : File) (cmd : LockCmd)
    (arg : Option Flock) (pos size : Nat) (memory : Bool) : Option (Reply × List LockRecord) :=
  match lockKeyOf file with
  | none => some (.err 22, locks)
  | some key =>
    match arg with
    | none => some (.err 14, locks)
    | some f =>
      match resolveLockRange file pos size f with
      | none => some (.err 22, locks)
      | some (start, stop) =>
        let exclusive := f.lType == fWrlck
        if f.lType = fUnlck then
          some (.ok, clearWhere (overlapping key pid start stop) locks)
        else if cmd = .getlk then
          match findConflict locks key pid start stop exclusive with
          | some c =>
            let len := if c.stop = toEof then 0 else c.stop - c.start
            some (.lock (if c.exclusive then 1 else 0) c.start len c.pid, locks)
          | none => some (.lock 2 0 0 0, locks)
        else
          orElse locks (cmd == .setlkw)
            (grant locks ⟨key, pid, start, stop, exclusive, true⟩ (overlapping key pid start stop)
              memory)

def lockSh : Nat := 1

def lockEx : Nat := 2

def lockNb : Nat := 4

def lockUn : Nat := 8

/-- `handle_flock`; `none` while the call waits. -/
def handleFlock (locks : List LockRecord) (pid : Nat) (file : File) (op : Nat) (memory : Bool) :
    Option (Reply × List LockRecord) :=
  match lockKeyOf file with
  | none => some (.err 22, locks)
  | some key =>
    if op &&& lockUn ≠ 0 then some (.ok, releaseLocks locks key pid)
    else
      let exclusive := decide (op &&& lockEx ≠ 0)
      if ¬ exclusive ∧ op &&& lockSh = 0 then some (.err 22, locks)
      else
        orElse locks (decide (op &&& lockNb = 0))
          (grant locks ⟨key, pid, 0, toEof, exclusive, true⟩
            (fun l => (l.key == key) && (l.pid == pid)) memory)

/-! ### The machine -/

inductive Inode
  | tmp (idx : Nat)
  | mount (port ino : Nat)
  deriving DecidableEq

def File.inode : File → Option Inode
  | .tmp idx => some (.tmp idx)
  | .mount port ino _ => some (.mount port ino)
  | .other => none

/-- Descriptor `fd` of process `pid`. -/
structure Fd where
  pid : Nat
  fd : Nat
  file : File
  /-- The open file description. -/
  ofd : Nat
  readable : Bool
  writable : Bool
  deriving DecidableEq

/-- What a lock call asks for, read once at its start: `fcntl` with the offset of the descriptor and the
length of the file, or `flock`. -/
inductive Request
  | fcntl (cmd : LockCmd) (arg : Option Flock) (pos size : Nat)
  | flock (op : Nat)
  deriving DecidableEq

structure State where
  fds : List Fd
  /-- `open_files` of each mount: the inode of a slot. -/
  slots : Nat → Nat → Option Nat
  locks : List LockRecord
  /-- The calls that wait, with the descriptor they were made on. -/
  waits : List (Fd × Request)
  /-- Record locks by POSIX: the mode of each byte, for each process. -/
  posix : Inode → Nat → Nat → Option Bool
  /-- Locks by `flock`: the mode of each description, with the process that asked for it. -/
  bsd : Inode → Nat → Option (Bool × Nat)

namespace State

/-- The file that a key stands for. -/
def inodeOf (s : State) : LockKey → Option Inode
  | .tmp idx => some (.tmp idx)
  | .mount port fileId => (s.slots port fileId).map (Inode.mount port)

def find (s : State) (pid fd : Nat) : Option Fd :=
  s.fds.find? fun d => decide (d.pid = pid ∧ d.fd = fd)

/-- The slot of a mounted file is free. -/
def slotFree (s : State) : File → Bool
  | .mount port _ fileId => (s.slots port fileId).isNone
  | _ => true

def takeSlot (s : State) : File → Nat → Nat → Option Nat
  | .mount port ino fileId =>
    Function.update s.slots port (Function.update (s.slots port) fileId (some ino))
  | _ => s.slots

/-- `open`: a new description; a mounted file gets a slot that is free. -/
def open' (s : State) (d : Fd) : Option State :=
  if (s.find d.pid d.fd).isNone ∧ (∀ d' ∈ s.fds, d'.ofd ≠ d.ofd) ∧ s.slotFree d.file then
    some { s with fds := d :: s.fds, slots := s.takeSlot d.file }
  else none

/-- A copy of a descriptor, for the same process (`dup`) or another one (`fork`). -/
def copy (s : State) (d : Fd) (pid fd : Nat) : Option State :=
  if (s.find pid fd).isNone then some { s with fds := { d with pid, fd } :: s.fds } else none

/-- `handle_close`. The mount frees the slot when no other descriptor names it; by `flock`, a lock
goes with the last descriptor of its description. -/
def close (s : State) (d : Fd) : State :=
  let rest := s.fds.filter fun d' => decide ¬ (d'.pid = d.pid ∧ d'.fd = d.fd)
  { s with
    fds := rest
    locks := match lockKeyOf d.file with
      | some key => releaseLocks s.locks key d.pid
      | none => s.locks
    slots := match d.file with
      | .mount port _ fileId =>
        if rest.any fun d' => lockKeyOf d'.file == lockKeyOf d.file then s.slots
        else Function.update s.slots port (Function.update (s.slots port) fileId none)
      | _ => s.slots
    posix := fun i p b => if some i = d.file.inode ∧ p = d.pid then none else s.posix i p b
    bsd := fun i o => if o = d.ofd ∧ rest.all (fun d' => d'.ofd != o) then none else s.bsd i o }

/-- What POSIX makes of a request that was granted. -/
def setPosix (s : State) (file : File) (pid start stop : Nat) (mode : Option Bool) : State :=
  { s with
    posix := fun i p b =>
      if some i = file.inode ∧ p = pid ∧ start ≤ b ∧ b < stop then mode else s.posix i p b }

/-- What `flock` makes of a request that was granted. -/
def setBsd (s : State) (file : File) (ofd : Nat) (mode : Option (Bool × Nat)) : State :=
  { s with bsd := fun i o => if some i = file.inode ∧ o = ofd then mode else s.bsd i o }

/-- `fcntl` with a lock command. -/
def fcntl (s : State) (d : Fd) (cmd : LockCmd) (arg : Option Flock) (pos size : Nat) (memory : Bool) :
    Option (Reply × State) :=
  (handleFcntlLock s.locks d.pid d.file cmd arg pos size memory).map fun r =>
    let s := { s with locks := r.2 }
    match arg.bind fun f => (resolveLockRange d.file pos size f).map fun x => (f, x) with
    | some (f, start, stop) =>
      if r.1 = .ok ∧ cmd ≠ .getlk then
        (r.1, s.setPosix d.file d.pid start stop
          (if f.lType = fUnlck then none else some (f.lType == fWrlck)))
      else (r.1, s)
    | none => (r.1, s)

def flock (s : State) (d : Fd) (op : Nat) (memory : Bool) : Option (Reply × State) :=
  (handleFlock s.locks d.pid d.file op memory).map fun r =>
    let s := { s with locks := r.2 }
    if r.1 = .ok then
      (r.1, s.setBsd d.file d.ofd
        (if op &&& lockUn ≠ 0 then none else some (decide (op &&& lockEx ≠ 0), d.pid)))
    else (r.1, s)

end State

inductive Action
  | open (d : Fd)
  | copy (pid fd pid' fd' : Nat)
  | close (pid fd : Nat)
  /-- A lock call; `memory`: there is some for a record. -/
  | lock (pid fd : Nat) (q : Request) (memory : Bool)
  /-- A call that waits tries again. -/
  | retry (d : Fd) (q : Request) (memory : Bool)

namespace State

/-- A call on a descriptor. -/
def withFd (s : State) (pid fd : Nat) (f : Fd → Option (Reply × State)) : Option (Reply × State) :=
  match s.find pid fd with
  | some d => f d
  | none => some (.err 9, s)

/-- One try of a request; `none` if it has to wait. -/
def attempt (s : State) (d : Fd) (memory : Bool) : Request → Option (Reply × State)
  | .fcntl cmd arg pos size => s.fcntl d cmd arg pos size memory
  | .flock op => s.flock d op memory

/-- The answer to a call, and the state after it; `none` if it cannot be made. -/
def call (s : State) : Action → Option (Reply × State)
  | .open d => (s.open' d).map fun s => (.ok, s)
  | .copy pid fd pid' fd' => s.withFd pid fd fun d => (s.copy d pid' fd').map fun s => (.ok, s)
  | .close pid fd => s.withFd pid fd fun d => some (.ok, s.close d)
  | .lock pid fd q memory => s.withFd pid fd fun d =>
    match s.attempt d memory q with
    | some r => some r
    | none => some (.wait, { s with waits := (d, q) :: s.waits })
  | .retry d q memory =>
    if (d, q) ∈ s.waits then
      match s.attempt d memory q with
      | some (r, s) => some (r, { s with waits := s.waits.erase (d, q) })
      | none => some (.wait, s)
    else none

def step (s : State) (a : Action) : Option State := (s.call a).map Prod.snd

/-- No descriptor and no lock. -/
def init : State := ⟨[], fun _ _ => none, [], [], fun _ _ _ => none, fun _ _ => none⟩

end State

end Leandros.Vfs.Locks
