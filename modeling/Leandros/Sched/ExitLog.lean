import Leandros.Sched.RunQueue

/-!
# Leandros.Sched.ExitLog

**The exit log** (`sched/src/lib.rs`): where an exit status is kept once the task's
slot is recycled. Process exits that nobody has waited for are in a pool with as
many entries as there may be processes, everything else is in a ring of 256
entries; a full pool spills into the ring.

The ring overwrites its oldest entry, so a status that was spilled can be lost there; the log
remembers that it has spilled (`spilled`), and only then a wait looks into the ring. A child whose
parent ignores `SIGCHLD` or has `SA_NOCLDWAIT` is logged as waited for already (`logExit`), and so
leaves no entry in the pool. `Kernel` is the run queue together with this log.
-/

namespace Leandros.Sched

/-- `MAX_PROCESSES`, which is also `MAX_ZOMBIE_RECORDS`. -/
def maxProcesses : Nat := 2048

/-- `EXIT_RECENT_LEN`. -/
def exitRecentLen : Nat := 256

/-- `ExitRecord`. -/
structure ExitRecord where
  pid : Nat
  status : ExitStatus
  parentTgid : Nat
  pgid : Nat
  isProcess : Bool
  consumed : Bool
  deriving DecidableEq

/-- An unconsumed process record. -/
def ExitRecord.pending (r : ExitRecord) : Bool := r.isProcess && !r.consumed

/-- `ExitLog`, with the population of the pool (`ZOMBIE_RECORDS`). -/
structure ExitLog where
  zombies : OrdMap ExitRecord
  recent : OrdMap ExitRecord
  ridx : Nat
  spilled : Bool
  zombieRecords : Nat

namespace ExitLog

/-- `ExitLog::new`. -/
def new : ExitLog := ⟨.empty, .empty, 0, false, 0⟩

/-- `push_recent`. -/
def pushRecent (log : ExitLog) (rec : ExitRecord) : ExitLog :=
  { log with recent := log.recent.insert log.ridx rec, ridx := (log.ridx + 1) % exitRecentLen }

/-- `insert`. -/
def insert (log : ExitLog) (rec : ExitRecord) : ExitLog :=
  if rec.pending then
    if log.zombies.freeKey < maxProcesses then
      { log with
        zombies := log.zombies.insert log.zombies.freeKey rec
        zombieRecords := log.zombieRecords + 1 }
    else { log with spilled := true }.pushRecent rec
  else log.pushRecent rec

/-- `consume_zombie`. -/
def consumeZombie (log : ExitLog) (i : Nat) : ExitLog :=
  match log.zombies.get? i with
  | some rec =>
    { log with zombies := log.zombies.erase i, zombieRecords := log.zombieRecords - 1 }.pushRecent
      { rec with consumed := true }
  | none => log

/-- A waiter takes a record that spilled into the ring. -/
def consumeSpilled (log : ExitLog) (i : Nat) : ExitLog :=
  { log with recent := log.recent.modify i fun r => { r with consumed := true } }

/-- `for_each_pending`. -/
def forEachPending (log : ExitLog) (f : ExitRecord → ExitRecord) : ExitLog :=
  { log with
    zombies := log.zombies.mapVals fun _ => f
    recent :=
      if log.spilled then log.recent.mapVals fun _ r => if r.pending then f r else r
      else log.recent }

end ExitLog

/-- The scheduler's shared state: `RUN_QUEUE`, `EXIT_LOG`, `INIT_PID` and the pid counter. -/
structure Kernel where
  rq : RunQueue
  exitLog : ExitLog
  initPid : Nat
  nextPid : Nat

namespace Kernel

def onQueue (k : Kernel) (f : RunQueue → RunQueue) : Kernel := { k with rq := f k.rq }

/-- `SA_NOCLDWAIT`. -/
def saNocldwait : BitVec 32 := 2

/-- `parent_autoreaps`: SIGCHLD set to `SIG_IGN`, or `SA_NOCLDWAIT`. -/
def parentAutoreaps (rq : RunQueue) (parentTgid : Nat) : Bool :=
  match rq.findPid parentTgid with
  | some l =>
    let a := l.signalActions sigchld
    a.handler == 1 || a.flags &&& saNocldwait != 0
  | none => false

/-- `log_exit`. -/
def logExit (k : Kernel) (pid : Nat) (status : ExitStatus) (parentTgid pgid : Nat)
    (isProcess consumed : Bool) : Kernel :=
  { k with
    exitLog := k.exitLog.insert
      { pid, status, parentTgid, pgid, isProcess
        consumed := consumed || (isProcess && parentAutoreaps k.rq parentTgid) } }

/-- The end of both reap paths: log the exit of the task in slot `i`, then free the slot. -/
def reap (k : Kernel) (i : Nat) : Kernel :=
  match k.rq.tasks.get? i with
  | some t =>
    (k.logExit t.pid t.exitStatus (k.rq.resolve t.ppid) t.pgid t.isLeader
      t.waitReported).onQueue (·.remove i)
  | none => k

end Kernel

end Leandros.Sched
