import Leandros.Lib.Machine
import Leandros.Sched.Signal

/-!
# Leandros.Sched.Nesting

**Every level of a thread's code runs under its own signal mask.** A handler interrupts a level of
user code and starts a new one; `rt_sigreturn` goes back to the level below. `Levels` says which
mask each level is to have. The thread has one mask, the one it saved for a `sigsuspend` or a
`ppoll`, and the masks in the frames on its stack; `masks_nest` says that whenever user code runs
these are the masks of its levels.

A handler with `SA_NODEFER` is the exception: its `sa_mask` is left out as well
(`nodefer_drops_sa_mask`).
-/

namespace Leandros.Sched.Nesting

open RunQueue (saNodefer)

/-! ### The masks there should be -/

/-- The masks of a thread's levels of user code. -/
structure Levels where
  /-- The level that runs. -/
  own : SigSet
  /-- The levels it interrupted, the last one first. -/
  under : List SigSet
  /-- The mask of a wait that is not over. -/
  temp : Option SigSet
  deriving DecidableEq

namespace Levels

/-- The mask in force. -/
def inForce (l : Levels) : SigSet := l.temp.getD l.own

/-- What a handler blocks: the signal itself, unless it is not to be deferred, and `sa_mask`. -/
def blocks (sig : Nat) (action : SigAction) : SigSet :=
  (if action.flags &&& saNodefer = 0 then .bit sig else 0) ||| action.mask

/-- A handler starts; it ends a wait. -/
def enter (l : Levels) (sig : Nat) (action : SigAction) : Levels where
  own := l.inForce ||| blocks sig action
  under := l.own :: l.under
  temp := none

/-- A handler returns. -/
def leave (l : Levels) : Levels :=
  match l.under with
  | m :: ms => ⟨m, ms, none⟩
  | [] => l

def wait (l : Levels) (mask : SigSet) : Levels := { l with temp := some mask }

def endWait (l : Levels) : Levels := { l with temp := none }

end Levels

/-! ### The thread -/

/-- Where a thread is between two holds of `RUN_QUEUE`. -/
inductive Place
  | user
  /-- `sigsuspend_with` (`suspend`) or `masked_timed_wait`, after the mask was replaced. -/
  | waiting (oldMask : SigSet) (suspend : Bool)
  /-- On the way to user space: the loop of `deliver_pending_signals`. -/
  | leaving
  | stopped
  | sampled (sig : Nat) (action : SigAction) (oldMask : SigSet)
  | dequeued (sig : Nat) (action : SigAction) (oldMask : SigSet)
  | dead
  deriving DecidableEq

/-- A thread, the frames on its stack and the levels of its code. -/
structure Thread where
  task : Task
  place : Place
  /-- `uc_sigmask` of each frame, the newest first. -/
  frames : List SigSet
  levels : Levels

inductive Action
  /-- `sys_sigprocmask`; `how` is 0 for block, 1 for unblock, 2 for set. -/
  | sigprocmask (how : Nat) (set : SigSet)
  /-- Any other way into the kernel and out again. -/
  | enter
  | sigsuspend (mask : SigSet)
  /-- `ppoll` and `pselect6`. -/
  | maskedWait (mask : SigSet)
  | endWait (interrupted : Bool)
  /-- The sample of the delivery loop; `table` is what the leader's `signal_actions` has. -/
  | sample (table : Nat → SigAction)
  /-- The group was continued. -/
  | resume
  | dequeue
  | act (frameOk : Bool)
  | sigreturn
  /-- Holds of other threads and of code without masks: signals come and go, stops are asked for
  and taken back. No other thread writes one of the two masks. -/
  | others (task : Task)

namespace Thread

/-- `sys_sigprocmask`. -/
def newMask (how : Nat) (set mask : SigSet) : SigSet :=
  match how with
  | 0 => mask ||| (set &&& ~~~unblockable)
  | 1 => mask &&& ~~~set
  | 2 => set &&& ~~~unblockable
  | _ => mask

/-- The mask is replaced for a wait. -/
def startWait (t : Thread) (mask : SigSet) (suspend : Bool) : Thread :=
  { t with
    task := { t.task with signalMask := mask }
    place := .waiting t.task.signalMask suspend
    levels := t.levels.wait mask }

/-- The sampling hold. A saved mask with nothing deliverable goes straight back. -/
def sample (t : Thread) (table : Nat → SigAction) : Thread :=
  if t.task.stopPending && t.task.state != .zombie then
    { t with task := t.task.park, place := .stopped }
  else if t.task.signalPending &&& ~~~t.task.signalMask = 0 then
    { t with
      task :=
        { t.task with
          signalMask := t.task.savedSigmask.getD t.task.signalMask
          savedSigmask := none }
      place := .user
      levels := t.levels.endWait }
  else
    let sig := t.task.nextSignal
    { t with
      place := .sampled sig (if unblockable.has sig then defaultSigaction else table sig)
        (t.task.savedSigmask.getD t.task.signalMask) }

/-- A handler's blocked set, and the frame with the mask that it returns to. -/
def runHandler (t : Thread) (sig : Nat) (action : SigAction) (oldMask : SigSet) : Thread where
  task :=
    { t.task with
      savedSigmask := none
      signalMask :=
        if action.flags &&& saNodefer = 0 then t.task.signalMask ||| .bit sig ||| action.mask
        else t.task.signalMask }
  place := .user
  frames := oldMask :: t.frames
  levels := t.levels.enter sig action

/-- What the delivery loop does with a dequeued signal. -/
def actOn (t : Thread) (sig : Nat) (action : SigAction) (oldMask : SigSet) (frameOk : Bool) :
    Thread :=
  if action.handler = 0 then
    if sigdflIgnore.has sig then { t with place := .leaving }
    else if sigdflStop.has sig then { t with task := t.task.park, place := .stopped }
    else { t with place := .dead }
  else if action.handler = 1 then { t with place := .leaving }
  else if frameOk then t.runHandler sig action oldMask
  else { t with place := .dead }

/-- One hold. -/
def step (t : Thread) (a : Action) : Option Thread :=
  match a, t.place with
  | .sigprocmask how set, .user =>
    some
      { t with
        task := { t.task with signalMask := newMask how set t.task.signalMask }
        place := .leaving
        levels := { t.levels with own := newMask how set t.levels.own } }
  | .enter, .user => some { t with place := .leaving }
  | .sigsuspend mask, .user => some (t.startWait mask true)
  | .maskedWait mask, .user => some (t.startWait (mask &&& ~~~unblockable) false)
  | .endWait interrupted, .waiting oldMask suspend =>
    if suspend || interrupted then
      some { t with task := { t.task with savedSigmask := some oldMask }, place := .leaving }
    else
      some
        { t with
          task := { t.task with signalMask := oldMask }
          place := .leaving
          levels := t.levels.endWait }
  | .sample table, .leaving => some (t.sample table)
  | .resume, .stopped => some { t with place := .leaving }
  | .dequeue, .sampled sig action oldMask =>
    some
      { t with
        task := { t.task with signalPending := t.task.signalPending &&& ~~~.bit sig }
        place := .dequeued sig action oldMask }
  | .act frameOk, .dequeued sig action oldMask => some (t.actOn sig action oldMask frameOk)
  | .sigreturn, .user =>
    match t.frames with
    | mask :: frames =>
      some
        { task := { t.task with signalMask := mask }
          place := .leaving
          frames := frames
          levels := t.levels.leave }
    | [] => none
  | .others task, _ =>
    if task.signalMask = t.task.signalMask ∧ task.savedSigmask = t.task.savedSigmask then
      some { t with task := task }
    else none
  | _, _ => none

/-- A thread that starts in user space. -/
structure Init (t : Thread) : Prop where
  place : t.place = .user
  frames : t.frames = []
  saved : t.task.savedSigmask = none
  levels : t.levels = ⟨t.task.signalMask, [], none⟩

/-- A handler with `SA_NODEFER` has nothing in its `sa_mask` that is not blocked already. -/
def Covered (t : Thread) : Action → Prop
  | .act _ =>
    match t.place with
    | .dequeued _ action _ =>
      action.handler < 2 ∨ action.flags &&& saNodefer = 0 ∨ action.mask &&& ~~~t.task.signalMask = 0
    | _ => True
  | _ => True

instance (t : Thread) (a : Action) : Decidable (t.Covered a) := by
  unfold Covered
  split
  · split <;> infer_instance
  · infer_instance

/-! ### The masks at each place -/

/-- On the way to user space. -/
structure Returning (task : Task) (l : Levels) : Prop where
  mask : task.signalMask = l.inForce
  saved : task.savedSigmask = l.temp.map fun _ => l.own

/-- The masks of a thread at a place are those of its levels. -/
def Matches (task : Task) (l : Levels) : Place → Prop
  | .user => task.signalMask = l.own ∧ task.savedSigmask = none ∧ l.temp = none
  | .waiting oldMask _ =>
    l.temp = some task.signalMask ∧ task.savedSigmask = none ∧ oldMask = l.own
  | .leaving | .stopped => Returning task l
  | .sampled _ _ oldMask | .dequeued _ _ oldMask => Returning task l ∧ oldMask = l.own
  | .dead => True

structure Inv (t : Thread) : Prop where
  frames : t.frames = t.levels.under
  place : Matches t.task t.levels t.place

variable {t t' : Thread} {task : Task} {l : Levels}

theorem Init.inv (h : t.Init) : t.Inv where
  frames := by rw [h.frames, h.levels]
  place := by
    rw [h.place]
    exact ⟨by rw [h.levels], h.saved, by rw [h.levels]⟩

/-- Outside a wait the masks are the same as in user space. -/
theorem Returning.of_user (h : Matches task l .user) : Returning task l where
  mask := by rw [h.1, Levels.inForce, h.2.2, Option.getD_none]
  saved := by rw [h.2.1, h.2.2, Option.map_none]

/-- The mask to go back to is the level's own. -/
theorem Returning.getD_saved (h : Returning task l) :
    task.savedSigmask.getD task.signalMask = l.own := by
  rw [h.saved, h.mask, Levels.inForce]
  cases l.temp <;> rfl

/-- Only the two masks of the task matter. -/
theorem Matches.congr {task' : Task} {place : Place} (h : Matches task l place)
    (hm : task'.signalMask = task.signalMask) (hs : task'.savedSigmask = task.savedSigmask) :
    Matches task' l place := by
  cases place with
  | user | waiting => simpa only [Matches, hm, hs] using h
  | leaving | stopped => exact ⟨hm.trans h.mask, hs.trans h.saved⟩
  | sampled | dequeued => exact ⟨⟨hm.trans h.1.mask, hs.trans h.1.saved⟩, h.2⟩
  | dead => trivial

theorem Inv.sample (h : t.Inv) (hr : Returning t.task t.levels) (table : Nat → SigAction) :
    (t.sample table).Inv := by
  unfold Thread.sample
  split
  · exact ⟨h.frames, hr.mask, hr.saved⟩
  · split
    · exact ⟨h.frames, hr.getD_saved, rfl, rfl⟩
    · exact ⟨h.frames, hr, hr.getD_saved⟩

/-- What is blocked already need not be added. -/
theorem or_eq_of_covered {m s : SigSet} (h : s &&& ~~~m = 0) : m ||| s = m := by
  ext i hi
  have hbit : (s &&& ~~~m)[i] = (0 : SigSet)[i] := by rw [h]
  rw [BitVec.getElem_and] at hbit
  cases hm : m[i] <;> simp_all

theorem Inv.runHandler (h : t.Inv) (hr : Returning t.task t.levels) {sig : Nat} {action : SigAction}
    (hc : action.flags &&& saNodefer = 0 ∨ action.mask &&& ~~~t.task.signalMask = 0) :
    (t.runHandler sig action t.levels.own).Inv where
  frames := congrArg (t.levels.own :: ·) h.frames
  place := by
    refine ⟨?_, rfl, rfl⟩
    simp only [Thread.runHandler, Levels.enter, Levels.blocks, ← hr.mask]
    split
    · rw [BitVec.or_assoc]
    · next hn =>
      rw [show (0 : SigSet) ||| action.mask = action.mask from BitVec.zero_or,
        or_eq_of_covered (hc.resolve_left hn)]

/-- Acting on a signal keeps the levels in order. -/
theorem Inv.actOn (h : t.Inv) (hr : Returning t.task t.levels) {sig : Nat} {action : SigAction}
    {frameOk : Bool} (hc : action.handler < 2 ∨ action.flags &&& saNodefer = 0 ∨
      action.mask &&& ~~~t.task.signalMask = 0) :
    (t.actOn sig action t.levels.own frameOk).Inv := by
  unfold Thread.actOn
  split
  · split
    -- ignored: back to the same level
    · exact ⟨h.frames, hr⟩
    · split
      · exact ⟨h.frames, hr.mask, hr.saved⟩
      · exact ⟨h.frames, trivial⟩
  · next h0 =>
    split
    · exact ⟨h.frames, hr⟩
    · next h1 =>
      -- the frame is written and a new level starts, or the group is ended by SIGSEGV
      split
      · exact h.runHandler hr (hc.resolve_left (by omega))
      · exact ⟨h.frames, trivial⟩

/-- Every hold keeps the masks those of the levels. -/
theorem Inv.step {a : Action} (h : t.Inv) (hok : t.Covered a) (hs : t.step a = some t') :
    t'.Inv := by
  have hp := h.place
  unfold Thread.step at hs
  split at hs
  all_goals try rw [‹t.place = _›] at hp
  · -- rt_sigprocmask is about the current level
    next how set hu =>
    cases hs
    exact ⟨h.frames, .of_user ⟨congrArg (newMask how set) hp.1, hp.2⟩⟩
  · cases hs
    exact ⟨h.frames, .of_user hp⟩
  · cases hs
    exact ⟨h.frames, rfl, hp.2.1, hp.1⟩
  · cases hs
    exact ⟨h.frames, rfl, hp.2.1, hp.1⟩
  -- a wait is interrupted, and the mask is kept for the frame, or it ends and the mask comes back
  · obtain ⟨ht, hsaved, rfl⟩ := hp
    split at hs
    · cases hs
      exact ⟨h.frames, by rw [Levels.inForce, ht]; rfl, by rw [ht]; rfl⟩
    · cases hs
      exact ⟨h.frames, .of_user ⟨rfl, hsaved, rfl⟩⟩
  · next table hu =>
    cases hs
    exact h.sample hp table
  · cases hs
    exact ⟨h.frames, hp⟩
  · cases hs
    exact ⟨h.frames, ⟨hp.1.mask, hp.1.saved⟩, hp.2⟩
  · -- a handler is entered
    next hu =>
    obtain ⟨hr, rfl⟩ := hp
    cases hs
    rw [Covered, hu] at hok
    exact h.actOn hr hok
  · split at hs
    · next mask frames hf =>
      cases hs
      -- rt_sigreturn: the frame has the mask of the level below
      have hl : t.levels.leave = ⟨mask, frames, none⟩ := by
        rw [Levels.leave, ← h.frames, hf]
      exact ⟨by rw [hl], .of_user ⟨by rw [hl], hp.2.1, by rw [hl]⟩⟩
    · contradiction
  · obtain ⟨⟨hm, hsaved⟩, rfl⟩ := guard_eq_some hs
    exact ⟨h.frames, h.place.congr hm hsaved⟩
  · contradiction

/-- **Mask discipline.** In every run in which handlers with `SA_NODEFER` add nothing: whenever
user code runs, the thread's mask is that of the level that runs, the frames on its stack hold the
masks of the levels below, and no mask is saved for a wait. -/
theorem masks_nest (hr : Reachable Init Covered step t) (hu : t.place = .user) :
    t.task.signalMask = t.levels.own ∧ t.frames = t.levels.under ∧
      t.task.savedSigmask = none ∧ t.levels.temp = none := by
  have hI := hr.invariant (fun _ => Init.inv) fun _ _ _ hI ha hs => hI.step ha hs
  have hp := hI.place
  rw [hu] at hp
  exact ⟨hp.1, hI.frames, hp.2⟩

/-! ### Runs with and without the condition -/

/-- A thread with nothing blocked. -/
def start : Thread := ⟨.newKernel 1, .user, [], ⟨0, [], none⟩⟩

theorem start_init : start.Init := ⟨rfl, rfl, rfl, rfl⟩

/-- SIGUSR1 is sent. -/
def usr1Pending (mask : SigSet) (saved : Option SigSet) : Task :=
  { Task.newKernel 1 with signalPending := .bit 10, signalMask := mask, savedSigmask := saved }

/-- SIGUSR2 is blocked by SIGUSR1's handler. -/
def catches (flags : BitVec 32) : SigAction := ⟨0x1000, flags, 0, .bit 12⟩

/-- SIGUSR1 blocked by its process, a `sigsuspend` with SIGTERM blocked only, and SIGUSR1's handler;
then its return. -/
def suspendAndHandle : List Action :=
  [.sigprocmask 0 (.bit 10), .sample fun _ => defaultSigaction, .sigsuspend (.bit 15),
    .others (usr1Pending (.bit 15) none), .endWait true, .sample fun _ => catches 0, .dequeue,
    .act true]

/-- The handler runs under the mask of the `sigsuspend` and its own, and the mask from before comes
back. -/
theorem masks_nest_sigsuspend : ∃ t t', Reachable Init Covered step t ∧ t.place = .user ∧
      t.task.signalMask = .bit 15 ||| .bit 10 ||| .bit 12 ∧ Reachable Init Covered step t' ∧
      t'.place = .user ∧ t'.task.signalMask = .bit 10 ∧
      t'.frames = t'.levels.under ∧ t'.task.savedSigmask = none := by
  have hrun : ((replay Covered step start suspendAndHandle).any fun t =>
      t.place = .user ∧ t.task.signalMask = .bit 15 ||| .bit 10 ||| .bit 12) = true := by
    decide +kernel
  have hback : ((replay Covered step start
      (suspendAndHandle ++ [.sigreturn, .sample fun _ => defaultSigaction])).any fun t =>
        t.place = .user ∧ t.task.signalMask = .bit 10) = true := by decide +kernel
  obtain ⟨t, hr, hobs⟩ := Reachable.observe start_init hrun
  obtain ⟨t', hr', hobs'⟩ := Reachable.observe start_init hback
  obtain ⟨hu, hm⟩ := of_decide_eq_true hobs
  obtain ⟨hu', hm'⟩ := of_decide_eq_true hobs'
  have hn := masks_nest hr' hu'
  exact ⟨t, t', hr, hu, hm, hr', hu', hm', hn.2.1, hn.2.2.1⟩

/-- A handler with `SA_NODEFER` and SIGUSR2 in its `sa_mask` runs with SIGUSR2 unblocked. -/
theorem nodefer_drops_sa_mask :
    ∃ t, Reachable Init (fun _ _ => True) step t ∧ t.place = .user ∧ t.task.signalMask = 0 ∧
      t.levels.own = .bit 12 := by
  have hrun : ((replay (fun _ _ => True) step start
      [.others (usr1Pending 0 none), .enter, .sample fun _ => catches saNodefer, .dequeue,
        .act true]).any fun t =>
      t.place = .user ∧ t.task.signalMask = 0 ∧ t.levels.own = .bit 12) = true := by decide +kernel
  obtain ⟨t, hr, hobs⟩ := Reachable.observe start_init hrun
  exact ⟨t, hr, of_decide_eq_true hobs⟩

end Thread

end Leandros.Sched.Nesting
