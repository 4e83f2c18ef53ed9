import Leandros.Sched.ExitLog

/-!
# Leandros.Sched.Signal

Signal generation, delivery and job control (`sched/src/signal.rs` and the posting
half in `sched/src/lib.rs`). Every definition is what happens in one hold of
`RUN_QUEUE`; the locals a thread carries from one hold to the next are in its `ctx`.

What a hold returns for later work outside the lock (an idle CPU to kick, a parent to
tell) is left out: the parent's SIGCHLD is a signal generation of its own.
-/

namespace Leandros.Sched

/-! ### One task -/

namespace Task

/-- `on_signal_generated` for SIGCONT (`cont`) or SIGKILL, on a member of the group. -/
def resume (cont : Bool) (t : Task) : Task :=
  { t.clearBlockFields (t.state == .stopped) with
    stopPending := false
    signalPending := if cont then t.signalPending &&& ~~~sigdflStop else t.signalPending
    state := if t.state = .stopped then .ready else t.state }

/-- `on_signal_generated` for SIGCONT (`cont`) or SIGKILL, on the leader. -/
def resumeLeader (cont : Bool) (l : Task) : Task :=
  { l with
    sharedSignalPending :=
      if cont then l.sharedSignalPending &&& ~~~sigdflStop else l.sharedSignalPending
    stopSignal := 0
    stopReported := if l.stopSignal ≠ 0 then false else l.stopReported
    contPending := if l.stopSignal ≠ 0 then cont || l.contPending else l.contPending }

/-- A stop signal discards a pending SIGCONT. -/
def dropCont (t : Task) : Task :=
  { t with signalPending := t.signalPending &&& ~~~.bit sigcont }

def dropSharedCont (l : Task) : Task :=
  { l with sharedSignalPending := l.sharedSignalPending &&& ~~~.bit sigcont }

/-- Queue `sig` on a thread. A second instance keeps the payload of the first. -/
def queue (sig : Nat) (info : SigInfo) (t : Task) : Task :=
  { t with
    signalInfo :=
      if t.signalPending.has sig then t.signalInfo else Function.update t.signalInfo sig info
    signalPending := t.signalPending ||| .bit sig
    state := if t.state = .blocked then .ready else t.state }

/-- Queue `sig` for the process, on its leader. -/
def queueShared (sig : Nat) (info : SigInfo) (l : Task) : Task :=
  { l with
    signalInfo :=
      if (l.signalPending ||| l.sharedSignalPending).has sig then l.signalInfo
      else Function.update l.signalInfo sig info
    sharedSignalPending := l.sharedSignalPending ||| .bit sig }

/-- Put a thread that was asked to stop to sleep. -/
def park (t : Task) : Task := { t.clearBlockFields true with state := .stopped }

/-- `do_signal_stop`, on the leader. A stop while already stopped is not a new one. -/
def noteStop (sig : Nat) (l : Task) : Task :=
  { l with
    stopSignal := if l.stopSignal = 0 then sig else l.stopSignal
    stopReported := if l.stopSignal = 0 then false else l.stopReported
    contPending := false }

/-- `do_signal_stop` by `pid` parks this member at once: a thread on another CPU is only
asked to stop. -/
def stopsWith (pid : Nat) (t : Task) : Bool :=
  t.pid == pid || (t.onCpu.isNone && (t.state == .ready || t.state == .blocked))

/-- `do_signal_stop` by `pid`, on a member of the group. -/
def askStop (pid : Nat) (t : Task) : Task :=
  { t.clearBlockFields (t.stopsWith pid) with
    signalPending := t.signalPending &&& ~~~.bit sigcont
    stopPending := true
    state := if t.stopsWith pid then .stopped else t.state }

/-- The sample's choice: a synchronous fault goes ahead of everything else. -/
def nextSignal (t : Task) : Nat :=
  let unmasked := t.signalPending &&& ~~~t.signalMask
  let sync := unmasked &&& synchronousMask
  (if sync ≠ 0 then sync else unmasked).first

end Task

namespace RunQueue

/-! ### Generation -/

/-- `on_signal_generated`. -/
def onSignalGenerated (rq : RunQueue) (tgid sig : Nat) : RunQueue :=
  if sig = sigcont ∨ sig = sigkill then
    (rq.mapTasks fun t => if t.tgid = tgid then t.resume (sig = sigcont) else t).modifyPid tgid
      (Task.resumeLeader (sig = sigcont))
  else if sigdflStop.has sig then
    (rq.mapTasks fun t => if t.tgid = tgid then t.dropCont else t).modifyPid tgid
      Task.dropSharedCont
  else rq

/-- `post_signal_thread`. -/
def postSignalThread (rq : RunQueue) (pid sig : Nat) (info : SigInfo) : Int × RunQueue :=
  if SigSet.Valid sig then
    match rq.findPid pid with
    | some t => (0, (rq.onSignalGenerated t.tgid sig).modifyPid pid (Task.queue sig info))
    | none => (-3, rq)
  else (if (rq.findPid pid).isSome then -22 else -3, rq)

/-- May the thread take `sig` for its process? SIGKILL and SIGSTOP ignore the mask. -/
def eligible (tgid sig : Nat) (t : Task) : Bool :=
  t.tgid == tgid && (unblockable.has sig || !t.signalMask.has sig)

/-- The thread `post_signal_process` chooses: a blocked one if there is one. -/
def chooseThread (rq : RunQueue) (tgid sig : Nat) : Option Nat :=
  (rq.tasks.findKey? fun t => eligible tgid sig t && t.state == .blocked).or
    (rq.tasks.findKey? (eligible tgid sig))

/-- `post_signal_process`. -/
def postSignalProcess (rq : RunQueue) (tgid sig : Nat) (info : SigInfo) : Int × RunQueue :=
  let rq := rq.onSignalGenerated tgid sig
  match rq.chooseThread tgid sig with
  | some slot => (0, rq.modifyAt slot (Task.queue sig info))
  | none =>
    match rq.findPidIdx tgid with
    | some li => (0, rq.modifyAt li (Task.queueShared sig info))
    | none => (-3, rq)

/-- `deliver_signal_process`. -/
def deliverSignalProcess (rq : RunQueue) (tgid sig : Nat) (info : SigInfo) : Int × RunQueue :=
  if SigSet.Valid sig then rq.postSignalProcess tgid sig info else (-22, rq)

/-! ### Delivery -/

/-- The first hold of `deliver_pending_signals`: park for good if another thread ends the
group, else claim the process's signals that this thread has unmasked. -/
def claimShared (rq : RunQueue) (pid : Nat) : RunQueue :=
  match rq.findPid pid with
  | some t =>
    match rq.findPid t.tgid with
    | some l =>
      if l.groupExitOwner ≠ 0 ∧ l.groupExitOwner ≠ pid then
        rq.modifyPid pid fun t => { t with ctx := .parked }
      else
        let claimable := l.sharedSignalPending &&& ~~~t.signalMask
        (rq.modifyPid pid fun t =>
          { t with
            signalInfo := fun sig =>
              if claimable.has sig && !t.signalPending.has sig then l.signalInfo sig
              else t.signalInfo sig
            signalPending := t.signalPending ||| claimable }).modifyPid t.tgid fun l =>
          { l with sharedSignalPending := l.sharedSignalPending &&& ~~~claimable }
    | none => rq
  | none => rq

/-- The action a sampled signal has: the leader's table, except for SIGKILL and SIGSTOP. -/
def actionOf (rq : RunQueue) (tgid sig : Nat) : SigAction :=
  if unblockable.has sig then defaultSigaction
  else ((rq.findPid tgid).map fun l => l.signalActions sig).getD defaultSigaction

/-- The sampling hold of the delivery loop. -/
def sample (rq : RunQueue) (pid : Nat) : RunQueue :=
  match rq.findPid pid with
  | some t =>
    if t.stopPending && t.state != .zombie then rq.modifyPid pid Task.park
    else if t.signalPending &&& ~~~t.signalMask = 0 then
      match t.savedSigmask with
      | some m => rq.modifyPid pid fun t => { t with signalMask := m, savedSigmask := none }
      | none => rq
    else
      rq.modifyPid pid fun t =>
        { t with
          ctx := .sampled t.nextSignal (rq.actionOf t.tgid t.nextSignal)
            (t.savedSigmask.getD t.signalMask) (t.signalInfo t.nextSignal) }
  | none => rq

/-- The dequeuing hold. -/
def dequeue (rq : RunQueue) (pid sig : Nat) (action : SigAction) (oldMask : SigSet)
    (info : SigInfo) : RunQueue :=
  rq.modifyPid pid fun t =>
    { t with
      signalPending := t.signalPending &&& ~~~.bit sig
      ctx := .dequeued sig action oldMask info }

/-- `do_signal_stop`. -/
def doSignalStop (rq : RunQueue) (pid sig : Nat) : RunQueue :=
  match rq.findPid pid with
  | some me =>
    (rq.modifyPid me.tgid (Task.noteStop sig)).mapTasks fun t =>
      if t.tgid = me.tgid ∧ t.state ≠ .zombie then t.askStop pid else t
  | none => rq

/-- The hold of `stop_now_if_pending`; if it found the signal, `do_signal_stop` follows. -/
def stopNowIfPending (rq : RunQueue) (pid sig : Nat) : RunQueue :=
  match rq.findPid pid with
  | some me =>
    if ((rq.findPid me.tgid).map fun l => (l.signalActions sig).handler).getD 0 ≠ 0 then rq
    else
      let held := (rq.slots.any fun t => t.tgid == me.tgid && t.signalPending.has sig) ||
        ((rq.findPid me.tgid).map fun l => l.sharedSignalPending.has sig).getD false
      if held then
        ((rq.mapTasks fun t =>
          if t.tgid = me.tgid then { t with signalPending := t.signalPending &&& ~~~.bit sig }
          else t).modifyPid me.tgid fun l =>
            { l with sharedSignalPending := l.sharedSignalPending &&& ~~~.bit sig }).modifyPid
          pid fun t => { t with ctx := .dequeued sig defaultSigaction t.signalMask .none }
      else if me.stopPending then rq.modifyPid pid Task.park
      else rq
  | none => rq

/-- `SA_NODEFER`. -/
def saNodefer : BitVec 32 := 0x40000000

/-- `SA_RESETHAND`. -/
def saResethand : BitVec 32 := 0x80000000

/-- The hold before a handler runs: its blocked set and the one-shot reset. -/
def enterHandler (rq : RunQueue) (pid sig : Nat) (action : SigAction) : RunQueue :=
  let tgid := ((rq.findPid pid).map Task.tgid).getD 0
  let rq := rq.modifyPid pid fun t =>
    { t with
      savedSigmask := none
      signalMask :=
        if action.flags &&& saNodefer = 0 then t.signalMask ||| .bit sig ||| action.mask
        else t.signalMask }
  if action.flags &&& saResethand ≠ 0 ∧ tgid ≠ 0 then
    rq.modifyPid tgid fun l =>
      { l with
        signalActions := Function.update l.signalActions sig
          { l.signalActions sig with handler := 0 } }
  else rq

/-! ### Masks and dispositions -/

/-- `sys_sigprocmask` with a set; `how` is 0 for block, 1 for unblock, 2 for set. -/
def sysSigprocmask (rq : RunQueue) (pid how : Nat) (set : SigSet) : RunQueue :=
  rq.modifyPid pid fun t =>
    { t with
      signalMask :=
        match how with
        | 0 => t.signalMask ||| (set &&& ~~~unblockable)
        | 1 => t.signalMask &&& ~~~set
        | 2 => set &&& ~~~unblockable
        | _ => t.signalMask }

/-- `sys_sigaction`: the table is the leader's. -/
def sysSigaction (rq : RunQueue) (pid sig : Nat) (act : SigAction) : RunQueue :=
  if SigSet.Valid sig then
    match rq.findPid pid with
    | some t =>
      if unblockable.has sig then rq
      else rq.modifyPid t.tgid fun l =>
        { l with signalActions := Function.update l.signalActions sig act }
    | none => rq
  else rq

/-- `replace_signal_mask`. -/
def replaceSignalMask (rq : RunQueue) (pid : Nat) (mask : SigSet) : RunQueue :=
  rq.modifyPid pid fun t => { t with signalMask := mask }

/-- `stash_sigsuspend_mask`. -/
def stashSigsuspendMask (rq : RunQueue) (pid : Nat) (oldMask : SigSet) : RunQueue :=
  rq.modifyPid pid fun t => { t with savedSigmask := some oldMask }

/-- `reset_handlers_on_exec`: caught signals go back to their default. -/
def resetHandlersOnExec (rq : RunQueue) (tgid : Nat) : RunQueue :=
  rq.modifyPid tgid fun l =>
    { l with
      signalActions := fun sig =>
        if 2 ≤ (l.signalActions sig).handler then defaultSigaction else l.signalActions sig }

/-- Move a thread on to the next place in the kernel code. -/
def setCtx (rq : RunQueue) (pid : Nat) (ctx : Ctx) : RunQueue :=
  rq.modifyPid pid fun t => { t with ctx := ctx }

end RunQueue

end Leandros.Sched
