import Mathlib

/-!
# Leandros.Sched.Task

**The task descriptor** (`sched/src/task.rs`) with the fields that signals, job control,
exit and wait use, and signal sets.

A signal set is a 64-bit word with signal `n` at bit `n - 1`; the classes of default actions
(`sigdflIgnore`, `sigdflStop`, `unblockable`) are words as in the source. Of the address space, the
open files and the CPU context nothing is kept but what the modelled code reads.

The saved context (`ctx`) is what a thread does when it runs next. Here it is the
place in the modelled kernel code where the thread is, with the locals it needs there;
all other code is `Ctx.elsewhere`.
-/

namespace Leandros.Sched

/-! ### Signal sets -/

/-- A signal bit mask: bit `n` is signal `n + 1`. -/
abbrev SigSet := BitVec 64

namespace SigSet

/-- `1 << (sig - 1)`. -/
def bit (sig : Nat) : SigSet := BitVec.twoPow 64 (sig - 1)

/-- `s & (1 << (sig - 1)) != 0`. -/
def has (s : SigSet) (sig : Nat) : Bool := s.getLsbD (sig - 1)

/-- `trailing_zeros() + 1`: the first signal of a set; 65 for the empty set. -/
def first (s : SigSet) : Nat := ((List.range 64).find? fun n => s.getLsbD n).getD 64 + 1

@[simp] theorem has_or (s t : SigSet) (sig : Nat) : has (s ||| t) sig = (has s sig || has t sig) :=
  BitVec.getLsbD_or

@[simp] theorem has_and (s t : SigSet) (sig : Nat) : has (s &&& t) sig = (has s sig && has t sig) :=
  BitVec.getLsbD_and

/-- A signal number. -/
def Valid (sig : Nat) : Prop := 1 ≤ sig ∧ sig ≤ 64

instance (sig : Nat) : Decidable (Valid sig) := inferInstanceAs (Decidable (_ ∧ _))

theorem has_not {s : SigSet} {sig : Nat} (h : Valid sig) : has (~~~s) sig = !has s sig := by
  unfold has
  rw [BitVec.getLsbD_not, decide_eq_true (show sig - 1 < 64 by unfold Valid at h; omega),
    Bool.true_and]

end SigSet

/-! ### Signals -/

def sigkill : Nat := 9
def sigsegv : Nat := 11
def sigchld : Nat := 17
def sigcont : Nat := 18
def sigstop : Nat := 19

/-- `SIGDFL_IGNORE`: SIGCHLD, SIGCONT, SIGURG and SIGWINCH. -/
def sigdflIgnore : SigSet := .bit 17 ||| .bit 18 ||| .bit 23 ||| .bit 28

/-- `SIGDFL_STOP`: SIGSTOP, SIGTSTP, SIGTTIN and SIGTTOU. -/
def sigdflStop : SigSet := .bit 19 ||| .bit 20 ||| .bit 21 ||| .bit 22

/-- `UNBLOCKABLE`. -/
def unblockable : SigSet := .bit sigkill ||| .bit sigstop

/-- `SYNCHRONOUS_MASK`: SIGILL, SIGTRAP, SIGBUS, SIGFPE and SIGSEGV. -/
def synchronousMask : SigSet := .bit 4 ||| .bit 5 ||| .bit 7 ||| .bit 8 ||| .bit 11

/-- `SigAction`; handler 0 is `SIG_DFL`, 1 is `SIG_IGN`. -/
structure SigAction where
  handler : Nat
  flags : BitVec 32
  restorer : Nat
  mask : SigSet
  deriving DecidableEq

/-- `DEFAULT_SIGACTION`. -/
def defaultSigaction : SigAction := ⟨0, 0, 0, 0⟩

/-- `SigInfo`. -/
structure SigInfo where
  siCode : Int
  siPid : Int
  siUid : Nat
  siStatus : Int
  siAddr : Nat
  siValue : Nat
  deriving DecidableEq

/-- `SigInfo::NONE`. -/
def SigInfo.none : SigInfo := ⟨0, 0, 0, 0, 0, 0⟩

/-! ### Tasks -/

/-- `TaskState`. -/
inductive TaskState
  | ready | running | blocked | stopped | zombie
  deriving DecidableEq

/-- `ExitStatus`. -/
structure ExitStatus where
  code : Int
  termSignal : Nat
  deriving DecidableEq

/-- Where a thread is in the modelled kernel code. -/
inductive Ctx
  /-- In user space, or in code that is not modelled. -/
  | elsewhere
  /-- `deliver_pending_signals`, after the sample. -/
  | sampled (sig : Nat) (action : SigAction) (oldMask : SigSet) (info : SigInfo)
  /-- `deliver_pending_signals`, after the pending bit was cleared. -/
  | dequeued (sig : Nat) (action : SigAction) (oldMask : SigSet) (info : SigInfo)
  /-- `park_for_group_exit`. -/
  | parked
  /-- A system call that runs under a temporary mask; `oldMask` comes back at its end. -/
  | masked (oldMask : SigSet)
  /-- `exit_group_signal`, after the members were stamped. -/
  | stamped (signo : Nat)
  /-- `exit_group`, in `reparent_children`; `first`: before its first pass. -/
  | reparenting (code : Int) (first : Bool)
  /-- `exit_group`, in `run_group_kill`. -/
  | killing (code : Int)
  /-- `exit`, before the task is marked. -/
  | exiting (code : Int)
  /-- `exit`, after it, in `reparent_children`. -/
  | leaving (first : Bool)
  /-- `exit` or `exit_dying_thread`, in its last `yield_now`. -/
  | left
  /-- `dethread_current_group`, in the first kill loop. -/
  | dethreading
  /-- `dethread_current_group`, in the `take_over_leader` loop. -/
  | takingOver
  deriving DecidableEq

/-- `POLL_TAG_ALL`. -/
def pollTagAll : BitVec 64 := BitVec.allOnes 64

/-- `u64::MAX` as a deadline: none. -/
def noDeadline : Nat := 2 ^ 64 - 1

/-- `Task`. -/
structure Task where
  pid : Nat
  tgid : Nat
  ppid : Nat
  pgid : Nat
  uid : Nat
  state : TaskState
  onCpu : Option Nat
  ctx : Ctx
  exitCode : Int
  termSignal : Nat
  signalPending : SigSet
  signalMask : SigSet
  sharedSignalPending : SigSet
  signalActions : Nat → SigAction
  signalInfo : Nat → SigInfo
  savedSigmask : Option SigSet
  blockedOn : Option Nat
  pollDeadline : Nat
  pollMask : BitVec 64
  blockedFutex : Nat
  waitReported : Bool
  stopPending : Bool
  stopSignal : Nat
  stopReported : Bool
  contPending : Bool
  groupExitOwner : Nat
  groupKilled : Bool

namespace Task

/-- `Task::new_kernel`. -/
def newKernel (pid : Nat) : Task where
  pid := pid
  tgid := pid
  ppid := 0
  pgid := pid
  uid := 0
  state := .ready
  onCpu := none
  ctx := .elsewhere
  exitCode := 0
  termSignal := 0
  signalPending := 0
  signalMask := 0
  sharedSignalPending := 0
  signalActions := fun _ => defaultSigaction
  signalInfo := fun _ => .none
  savedSigmask := none
  blockedOn := none
  pollDeadline := noDeadline
  pollMask := pollTagAll
  blockedFutex := 0
  waitReported := false
  stopPending := false
  stopSignal := 0
  stopReported := false
  contPending := false
  groupExitOwner := 0
  groupKilled := false

/-- Is this a thread-group leader? -/
def isLeader (t : Task) : Bool := t.pid == t.tgid

/-- `ExitStatus { code: t.exit_code, term_signal: t.term_signal }`. -/
def exitStatus (t : Task) : ExitStatus := ⟨t.exitCode, t.termSignal⟩

/-- `clear_block_fields`, if `c`. -/
def clearBlockFields (t : Task) (c : Bool) : Task :=
  { t with
    blockedOn := if c then none else t.blockedOn
    pollDeadline := if c then noDeadline else t.pollDeadline
    pollMask := if c then pollTagAll else t.pollMask
    blockedFutex := if c then 0 else t.blockedFutex }

end Task

end Leandros.Sched
