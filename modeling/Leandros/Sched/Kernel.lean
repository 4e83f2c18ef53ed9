import Leandros.Lib.Machine
import Leandros.Sched.Exit
import Leandros.Sched.Wait

/-!
# Leandros.Sched.Kernel

**The scheduler as a machine.** A step is one hold of `RUN_QUEUE` by some CPU, so that
the runs of the machine are the interleavings of those holds. Which thread takes the
next step, which task is dispatched, and what code that is not modelled does (whether
a signal frame could be written, how many sleeping locks a task holds) is in the choice
of the action.

The kernel runs with interrupts masked and gives up its CPU only where it sleeps or
opens an interrupt window; `Ctx.yields` says which places those are.
-/

namespace Leandros.Sched

/-- The thread may stop running here. -/
def Ctx.yields : Ctx → Bool
  | .elsewhere | .parked | .masked _ | .killing _ | .exiting _ | .left | .dethreading
  | .takingOver => true
  | _ => false

/-- The thread may go to sleep here; not once it is past the end of `exit`. -/
def Ctx.sleeps (c : Ctx) : Bool := c.yields && c != .left

/-- The steps of the scheduler. -/
inductive Action
  /-- A CPU picks a `Ready` task. -/
  | dispatch (pid cpu : Nat)
  /-- `block_on_port_until`: publish `Blocked`, still running. -/
  | block (pid port deadline : Nat) (mask : BitVec 64)
  /-- `block_on_port_cancel`. -/
  | cancel (pid : Nat)
  /-- `unblock_port`, `wake_kwaiter` or the deadline tick, on one task. -/
  | wake (pid : Nat)
  | switchOut (pid klocks : Nat)
  | postProcess (tgid sig : Nat) (info : SigInfo)
  | postThread (pid sig : Nat) (info : SigInfo)
  | claimShared (pid : Nat)
  | sample (pid : Nat)
  | dequeue (pid : Nat)
  /-- What `deliver_pending_signals` does with the dequeued signal. -/
  | act (pid : Nat) (frameOk : Bool)
  | stopNow (pid sig : Nat)
  | sigprocmask (pid how : Nat) (set : SigSet)
  | sigaction (pid sig : Nat) (action : SigAction)
  /-- `sigsuspend_with`, up to its wait. -/
  | sigsuspend (pid : Nat) (mask : SigSet)
  /-- `masked_timed_wait` (ppoll, pselect6), up to its wait. -/
  | maskedWait (pid : Nat) (mask : SigSet)
  /-- The end of both; `interrupted` leaves the old mask to the delivery pass. -/
  | endWait (pid : Nat) (interrupted : Bool)
  /-- `restore_signal_frame`, with the mask that is in the frame. -/
  | sigreturn (pid : Nat) (mask : SigSet)
  | resetHandlers (pid : Nat)
  | clone (pid : Nat) (thread : Bool)
  | spawn
  /-- `exit_group_signal`, the stamping. -/
  | exitGroupSignal (pid signo : Nat)
  /-- `exit_group`, the claim. -/
  | exitGroup (pid : Nat) (code : Int)
  | reparent (pid : Nat)
  | kill (pid : Nat) (klocks : Nat → Nat)
  /-- `exit`, the marking. -/
  | exit (pid : Nat) (code : Int)
  /-- `dethread_current_group`, the claim. -/
  | dethread (pid : Nat)
  | takeOver (pid : Nat) (klocks : Nat → Nat)
  | wait (pid : Nat) (sel : WaitSel) (consume : Bool) (what : WaitWhat)

namespace RunQueue

/-- `block_on_port_until`. -/
def blockOnPortUntil (rq : RunQueue) (pid port deadline : Nat) (mask : BitVec 64) : RunQueue :=
  rq.modifyPid pid fun t =>
    { t with state := .blocked, blockedOn := some port, pollDeadline := deadline, pollMask := mask }

/-- `block_on_port_cancel`. -/
def blockOnPortCancel (rq : RunQueue) (pid : Nat) : RunQueue :=
  rq.modifyPid pid fun t =>
    { t with state := .running, blockedOn := none, pollDeadline := noDeadline
             pollMask := pollTagAll }

/-- One task of `unblock_port_tagged`. -/
def unblock (rq : RunQueue) (pid : Nat) : RunQueue :=
  rq.modifyPid pid fun t =>
    { t with state := .ready, blockedOn := none, pollDeadline := noDeadline
             pollMask := pollTagAll }

end RunQueue

namespace Kernel

/-- A step of the thread `pid`, which has to be on a CPU. -/
def thread (k : Kernel) (pid : Nat) (f : Task → Option Kernel) : Option Kernel :=
  match k.rq.findPid pid with
  | some t => if t.onCpu.isSome then f t else none
  | none => none

theorem thread_eq_some {k k' : Kernel} {pid : Nat} {f : Task → Option Kernel}
    (h : k.thread pid f = some k') :
    ∃ t, k.rq.findPid pid = some t ∧ t.onCpu.isSome ∧ f t = some k' := by
  unfold thread at h
  split at h
  · next t ht =>
    split at h
    · next hcpu => exact ⟨t, ht, hcpu, h⟩
    · contradiction
  · contradiction

/-- A step that the thread takes under a condition. -/
theorem thread_guard_eq_some {k k' : Kernel} {pid : Nat} {c : Task → Prop}
    {_ : ∀ t, Decidable (c t)} {f : Task → Kernel}
    (h : (k.thread pid fun t => if c t then some (f t) else none) = some k') :
    ∃ t, k.rq.findPid pid = some t ∧ t.onCpu.isSome ∧ c t ∧ f t = k' := by
  obtain ⟨t, ht, hcpu, h⟩ := thread_eq_some h
  exact ⟨t, ht, hcpu, guard_eq_some h⟩

/-- What the delivery loop does with a dequeued signal. -/
def actOn (k : Kernel) (pid sig : Nat) (action : SigAction) (frameOk : Bool) : Kernel :=
  if action.handler = 0 then
    if sigdflIgnore.has sig then k.onQueue (·.setCtx pid .elsewhere)
    else if sigdflStop.has sig then
      k.onQueue fun rq => (rq.doSignalStop pid sig).setCtx pid .elsewhere
    else k.onQueue fun rq => (rq.stampGroup pid sig).setCtx pid (.stamped sig)
  else if action.handler = 1 then k.onQueue (·.setCtx pid .elsewhere)
  else
    k.onQueue fun rq => (rq.enterHandler pid sig action).setCtx pid
      -- A frame that cannot be written is a fatal SIGSEGV.
      (if frameOk then .elsewhere else .dequeued sigsegv defaultSigaction 0 .none)

/-- `exit_group` at its claim. -/
def claimExit (k : Kernel) (pid : Nat) (code : Int) (won : Ctx) : Kernel :=
  match k.rq.claimGroupExit pid with
  | some rq => { k with rq := rq.setCtx pid won }
  | none => k.onQueue (·.exitDyingThread pid code)

/-- A kill loop goes on until it is done. -/
def afterKill (pid : Nat) (next : Ctx) (r : GroupKillStep × Kernel) : Kernel :=
  match r.1 with
  | .done => r.2.onQueue (·.setCtx pid next)
  | _ => r.2

/-- The take-over loop goes on until the caller leads its group; after the exchange its pid
is `tgid`. -/
def afterTakeOver (pid tgid : Nat) (r : GroupKillStep × Kernel) : Kernel :=
  match r.1 with
  | .done => r.2.onQueue (·.setCtx pid .elsewhere)
  | .reaped _ => r.2.onQueue (·.setCtx tgid .elsewhere)
  | _ => r.2

/-- The step an action takes, if it can be taken. -/
def step (k : Kernel) : Action → Option Kernel
  | .dispatch pid cpu =>
    match k.rq.findPid pid with
    | some t =>
      if t.state = .ready ∧ t.onCpu = none ∧ (k.rq.slots.all fun u => u.onCpu != some cpu) then
        some (k.onQueue (·.modifyPid pid fun t => { t with state := .running, onCpu := some cpu }))
      else none
    | none => none
  | .block pid port deadline mask =>
    k.thread pid fun t =>
      if t.ctx.sleeps then some (k.onQueue (·.blockOnPortUntil pid port deadline mask)) else none
  | .cancel pid =>
    k.thread pid fun t =>
      if t.ctx.sleeps then some (k.onQueue (·.blockOnPortCancel pid)) else none
  | .wake pid =>
    match k.rq.findPid pid with
    | some t => if t.state = .blocked then some (k.onQueue (·.unblock pid)) else none
    | none => none
  | .switchOut pid klocks =>
    k.thread pid fun t => if t.ctx.yields then some (k.switchOut pid klocks) else none
  | .postProcess tgid sig info => some (k.onQueue fun rq => (rq.deliverSignalProcess tgid sig info).2)
  | .postThread pid sig info => some (k.onQueue fun rq => (rq.postSignalThread pid sig info).2)
  | .claimShared pid =>
    k.thread pid fun t => if t.ctx = .elsewhere then some (k.onQueue (·.claimShared pid)) else none
  | .sample pid =>
    k.thread pid fun t => if t.ctx = .elsewhere then some (k.onQueue (·.sample pid)) else none
  | .dequeue pid =>
    k.thread pid fun t =>
      match t.ctx with
      | .sampled sig action oldMask info =>
        some (k.onQueue (·.dequeue pid sig action oldMask info))
      | _ => none
  | .act pid frameOk =>
    k.thread pid fun t =>
      match t.ctx with
      | .dequeued sig action _ _ => some (k.actOn pid sig action frameOk)
      | _ => none
  | .stopNow pid sig =>
    k.thread pid fun t =>
      if t.ctx = .elsewhere ∧ SigSet.Valid sig ∧ sigdflStop.has sig then
        some (k.onQueue (·.stopNowIfPending pid sig))
      else none
  | .sigprocmask pid how set =>
    k.thread pid fun t =>
      if t.ctx = .elsewhere then some (k.onQueue (·.sysSigprocmask pid how set)) else none
  | .sigaction pid sig action =>
    k.thread pid fun t =>
      if t.ctx = .elsewhere then some (k.onQueue (·.sysSigaction pid sig action)) else none
  | .sigsuspend pid mask =>
    k.thread pid fun t =>
      if t.ctx = .elsewhere then
        some (k.onQueue fun rq =>
          (rq.replaceSignalMask pid mask).setCtx pid (.masked t.signalMask))
      else none
  | .maskedWait pid mask =>
    k.thread pid fun t =>
      if t.ctx = .elsewhere then
        -- `read_user_sigmask` drops the two signals.
        some (k.onQueue fun rq =>
          (rq.replaceSignalMask pid (mask &&& ~~~unblockable)).setCtx pid (.masked t.signalMask))
      else none
  | .endWait pid interrupted =>
    k.thread pid fun t =>
      match t.ctx with
      | .masked oldMask =>
        some (k.onQueue fun rq =>
          (if interrupted then rq.stashSigsuspendMask pid oldMask
          else rq.replaceSignalMask pid oldMask).setCtx pid .elsewhere)
      | _ => none
  | .sigreturn pid mask =>
    k.thread pid fun t =>
      if t.ctx = .elsewhere then some (k.onQueue (·.replaceSignalMask pid mask)) else none
  | .resetHandlers pid =>
    k.thread pid fun t =>
      if t.ctx = .elsewhere then some (k.onQueue (·.resetHandlersOnExec t.tgid)) else none
  | .clone pid thread =>
    k.thread pid fun t => if t.ctx = .elsewhere then some (k.cloneTask t thread) else none
  | .spawn => some k.spawn
  | .exitGroupSignal pid signo =>
    k.thread pid fun t =>
      if t.ctx = .elsewhere then
        some (k.onQueue fun rq => (rq.stampGroup pid signo).setCtx pid (.stamped signo))
      else none
  | .exitGroup pid code =>
    k.thread pid fun t =>
      match t.ctx with
      | .elsewhere => some (k.claimExit pid code (.reparenting code true))
      | .stamped signo =>
        some (k.claimExit pid (128 + signo) (.reparenting (128 + signo) true))
      | _ => none
  | .reparent pid =>
    k.thread pid fun t =>
      match t.ctx with
      | .reparenting code first =>
        let pass := k.reparentPass t.tgid first
        some (pass.2.onQueue
          (·.setCtx pid (if pass.1 then .reparenting code false else .killing code)))
      | .leaving first =>
        let pass := k.reparentPass t.tgid first
        some (pass.2.onQueue (·.setCtx pid (if pass.1 then .leaving false else .left)))
      | _ => none
  | .kill pid klocks =>
    k.thread pid fun t =>
      match t.ctx with
      | .killing code =>
        some (afterKill pid (.exiting code) (k.killNextGroupMember pid code 0 klocks))
      | .dethreading =>
        some (afterKill pid .takingOver
          (k.killNextGroupMember pid 0 (if t.isLeader then 0 else t.tgid) klocks))
      | _ => none
  | .exit pid code =>
    k.thread pid fun t =>
      match t.ctx with
      | .elsewhere =>
        some (k.onQueue fun rq =>
          (rq.markExit pid code).setCtx pid (if t.isLeader then .leaving true else .left))
      | .exiting groupCode =>
        some (k.onQueue fun rq =>
          (rq.markExit pid groupCode).setCtx pid (if t.isLeader then .leaving true else .left))
      | _ => none
  | .dethread pid =>
    k.thread pid fun t =>
      if t.ctx = .elsewhere then some (k.claimExit pid 0 .dethreading) else none
  | .takeOver pid klocks =>
    k.thread pid fun t =>
      if t.ctx = .takingOver then
        if t.isLeader then
          -- The leader lives on as a group of one and is not exiting.
          some (k.onQueue (·.modifyPid pid fun t =>
            { t with groupExitOwner := 0, ctx := .elsewhere }))
        else some (afterTakeOver pid t.tgid (k.takeOverLeader pid t.tgid klocks))
      else none
  | .wait pid sel consume what =>
    k.thread pid fun t =>
      if t.ctx = .elsewhere then some (k.waitScan sel t.tgid consume what).2 else none

end Kernel

end Leandros.Sched
