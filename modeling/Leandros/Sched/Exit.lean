import Leandros.Sched.Signal

/-!
# Leandros.Sched.Exit

**Creating and ending tasks** (`sched/src/clone.rs` and the exit half of
`sched/src/lib.rs`). As in `Sched.Signal`, a definition is one hold of `RUN_QUEUE`.

The end of a thread group is spread over several holds: one thread claims it, the others are killed
one by one, and in an `exec` by another thread the leader's identity is taken over last. In between
other tasks run, so each hold is a definition of its own and the order of the holds is left to
the machine in `Sched.Life.World`.

How many sleeping locks a task holds (`klocks_held`) is an input here; the locks
themselves are modelled in `Sched.Ksync`. A task that holds one is not killed on the spot.
-/

namespace Leandros.Sched

/-- `GroupKillStep`. -/
inductive GroupKillStep
  | done
  | reaped (pid : Nat)
  | kicking
  | deferred (pid : Nat)
  deriving DecidableEq

namespace RunQueue

/-- `claim_group_exit`; `none` is `AlreadyDying`. -/
def claimGroupExit (rq : RunQueue) (pid : Nat) : Option RunQueue :=
  match rq.findPid pid with
  | some t =>
    match rq.findPid t.tgid with
    | some l =>
      if l.groupExitOwner ≠ 0 ∧ l.groupExitOwner ≠ pid then none
      else
        some ((rq.modifyPid t.tgid fun l => { l with groupExitOwner := pid }).modifyPid pid
          fun me => { me with stopPending := false })
    | none => none
  | none => none

/-- `exit_dying_thread`. -/
def exitDyingThread (rq : RunQueue) (pid : Nat) (code : Int) : RunQueue :=
  rq.modifyPid pid fun t =>
    { t with
      exitCode := if t.state = .zombie then t.exitCode else code
      state := .zombie
      ctx := .left }

/-- The stamping hold of `exit_group_signal`. -/
def stampGroup (rq : RunQueue) (pid signo : Nat) : RunQueue :=
  if signo ≠ 0 ∧ signo ≤ 64 then
    let tgid := rq.resolve pid
    rq.mapTasks fun t => if t.tgid = tgid then { t with termSignal := signo } else t
  else rq

/-- The marking hold of `exit`. -/
def markExit (rq : RunQueue) (pid : Nat) (code : Int) : RunQueue :=
  rq.modifyPid pid fun t => { t with state := .zombie, exitCode := code }

end RunQueue

namespace Kernel

/-! ### New tasks -/

/-- `alloc_pid`, whose counter is a `u32`. -/
def allocPid (k : Kernel) : Nat × Kernel :=
  (k.nextPid, { k with nextPid := (k.nextPid + 1) % 2 ^ 32 })

/-- `admit_locked`. -/
def admitLocked (k : Kernel) (newProcess : Bool) : Bool :=
  decide (k.rq.len < maxTasks) &&
    (!newProcess || decide (k.rq.nproc + k.exitLog.zombieRecords < maxProcesses))

/-- The child of `clone_thread`, as a thread of the caller's group or as a process. A
`fork_current` builds the same process. -/
def newChild (k : Kernel) (parent : Task) (thread : Bool) : Task :=
  { Task.newKernel k.nextPid with
    ppid := parent.pid
    tgid := if thread then parent.tgid else k.nextPid
    pgid := parent.pgid
    uid := parent.uid
    signalMask := parent.signalMask
    signalActions :=
      if thread then fun _ => defaultSigaction
      else ((k.rq.findPid parent.tgid).map Task.signalActions).getD fun _ => defaultSigaction }

/-- `fork_current` and `clone_thread`, at the hold that enqueues the child. -/
def cloneTask (k : Kernel) (parent : Task) (thread : Bool) : Kernel :=
  let child := k.newChild parent thread
  let k := k.allocPid.2
  if k.admitLocked !thread then
    match k.rq.enqueue child with
    | some rq => { k with rq }
    | none => k
  else k

/-- `spawn` and `spawn_with_arg`: a kernel thread, enqueued without admission. -/
def spawn (k : Kernel) : Kernel :=
  let task := Task.newKernel k.nextPid
  let k := k.allocPid.2
  match k.rq.enqueue task with
  | some rq => { k with rq }
  | none => k

/-! ### Reaping -/

/-- The end of `kill_next_group_member_except`: mark the chosen member, and reap it at once
unless it runs on another CPU. -/
def killMember (k : Kernel) (i : Nat) (t : Task) (code : Int) : GroupKillStep × Kernel :=
  let k := k.onQueue (·.modifyAt i fun t =>
    { t with state := .zombie, groupKilled := true, exitCode := code })
  if t.onCpu.isSome then (.kicking, k) else (.reaped t.pid, k.reap i)

/-- `kill_next_group_member_except`; `skip` 0 is none. -/
def killNextGroupMember (k : Kernel) (pid : Nat) (code : Int) (skip : Nat)
    (klocks : Nat → Nat) : GroupKillStep × Kernel :=
  match k.rq.findPid pid with
  | none => (.done, k)
  | some me =>
    let member (t : Task) : Bool := t.tgid == me.tgid && t.pid != pid && t.pid != skip
    match k.rq.tasks.find? fun t => member t && klocks t.pid == 0 && t.pid != me.tgid with
    | some (i, t) => k.killMember i t code
    | none =>
      match k.rq.tasks.find? fun t => member t && klocks t.pid != 0 with
      | some (_, t) => (.deferred t.pid, k)
      | none =>
        -- The leader goes last.
        match k.rq.tasks.find? fun t => member t && klocks t.pid == 0 && t.pid == me.tgid with
        | some (i, t) => k.killMember i t code
        | none => (.done, k)

/-- What `take_over_leader` makes of the caller: the leader's pid and process-level state. -/
def inheritLeader (l me : Task) (tgid : Nat) : Task :=
  let newBits := l.signalPending &&& ~~~me.signalPending
  { me with
    pid := tgid
    ppid := l.ppid
    pgid := l.pgid
    uid := l.uid
    signalActions := l.signalActions
    sharedSignalPending := me.sharedSignalPending ||| l.sharedSignalPending
    signalPending := me.signalPending ||| l.signalPending
    signalInfo := fun sig =>
      if (l.sharedSignalPending ||| newBits).has sig then l.signalInfo sig else me.signalInfo sig
    stopSignal := l.stopSignal
    stopReported := l.stopReported
    contPending := l.contPending
    stopPending := false
    waitReported := l.waitReported
    groupExitOwner := 0 }

/-- `take_over_leader`. -/
def takeOverLeader (k : Kernel) (pid tgid : Nat) (klocks : Nat → Nat) : GroupKillStep × Kernel :=
  match k.rq.findPidIdx pid with
  | none => (.done, k)
  | some meIdx =>
    match k.rq.tasks.find? fun t => t.pid == tgid with
    | none =>
      -- The leader was reaped before: a group of its own, under its own pid.
      (.done, k.onQueue fun rq =>
        (rq.modifyAt meIdx fun me => { me with tgid := pid, groupExitOwner := 0 }).noteLeaderPromoted)
    | some (lidx, l) =>
      if klocks l.pid ≠ 0 then (.deferred l.pid, k)
      else if l.onCpu.isSome then
        (.kicking, k.onQueue (·.modifyAt lidx fun l => { l with stopPending := true }))
      else
        let k := k.onQueue fun rq =>
          ((rq.modifyAt meIdx fun me => inheritLeader l me tgid).modifyAt lidx fun l =>
            { l with state := .zombie, exitCode := 0, pid := pid }).mapTasks fun t =>
            if t.ppid = pid ∧ t.pid ≠ pid then { t with ppid := tgid } else t
        let k := k.logExit pid ⟨0, 0⟩ (k.rq.resolve l.ppid) l.pgid false false
        (.reaped pid, k.onQueue (·.remove lidx))

/-- The state of a task that stops running, before stops and kills are looked at. -/
def offState (t : Task) : TaskState := if t.state = .running then .ready else t.state

/-- A thread that was asked to stop does so when it stops running, unless it holds a
sleeping lock. -/
def stopsNow (t : Task) (klocks : Nat) : Bool :=
  t.stopPending && klocks == 0 && (offState t == .ready || offState t == .blocked)

/-- The task as the scheduler leaves it when it stops running. -/
def switchedOut (t : Task) (klocks : Nat) : Task :=
  { t.clearBlockFields (stopsNow t klocks) with
    onCpu := none
    state :=
      if stopsNow t klocks then .stopped
      -- A killed thread that took a sleeping lock meanwhile runs on.
      else if t.state = .zombie ∧ t.groupKilled ∧ klocks ≠ 0 then .ready
      else offState t }

/-- The scheduler's hold after a task stopped running. -/
def switchOut (k : Kernel) (pid klocks : Nat) : Kernel :=
  match k.rq.tasks.find? fun t => t.pid == pid with
  | some (i, t) =>
    let k := k.onQueue (·.modifyAt i fun t => switchedOut t klocks)
    if (switchedOut t klocks).state = .zombie then k.reap i else k
  | none => k

/-! ### Orphans -/

/-- `BATCH`. -/
def reparentBatch : Nat := 64

/-- The processes of the queue whose parent is `dead`, in slot order. -/
def childrenOf (rq : RunQueue) (dead : Nat) : List Nat :=
  (rq.slots.filter fun t => t.isLeader && t.pid != dead && rq.resolve t.ppid == dead).map Task.pid

/-- One pass of `reparent_children`: a batch of children, and on the first pass the exit
records. Also tells whether children are left. -/
def reparentPass (k : Kernel) (dead : Nat) (first : Bool) : Bool × Kernel :=
  if k.initPid = 0 ∨ k.initPid = dead then (false, k)
  else
    let children := childrenOf k.rq dead
    let exitLog :=
      if first then
        k.exitLog.forEachPending fun rec =>
          if rec.parentTgid = dead then { rec with parentTgid := k.initPid } else rec
      else k.exitLog
    let rq := (children.take reparentBatch).foldl
      (fun rq pid => rq.modifyPid pid fun t => { t with ppid := k.initPid }) k.rq
    (decide (reparentBatch < children.length), { k with rq, exitLog })

end Kernel

end Leandros.Sched
