import Leandros.Sched.ExitLog

/-!
# Leandros.Sched.Wait

**One wait attempt** (`wait_scan`): the children on the run queue first, then the exit
log. The single pass of the source over the slots looks for four things at once;
here each has its own search in slot order.

`WaitOutcome` lists what an attempt can answer, each answer with what holds of the kernel then and
with what the attempt changes: a dead child in its slot, a record of the exit log or of its ring, a
stop or a continuation that was not reported, a child that still runs, or no child at all.
`waitScan_outcome` is the only place where the search itself is opened; the proofs about whole runs
go through its cases. With `WNOWAIT` (`consume` false) the kernel is left as it was.
-/

namespace Leandros.Sched

open OrdMap

/-- `WaitSel`. -/
inductive WaitSel
  | pid (p : Nat)
  | any
  | pgid (g : Nat)
  deriving DecidableEq

/-- `WaitWhat`. -/
structure WaitWhat where
  exited : Bool
  stopped : Bool
  continued : Bool
  deriving DecidableEq

/-- `WaitTry`. -/
inductive WaitTry
  | reaped (pid : Nat) (status : ExitStatus)
  | stopped (pid : Nat) (sig : Nat)
  | continued (pid : Nat)
  | stillRunning
  | noChildren
  deriving DecidableEq

/-- `matches`. -/
def WaitSel.accepts (sel : WaitSel) (pid pgid : Nat) : Bool :=
  match sel with
  | .pid p => pid == p
  | .any => true
  | .pgid g => pgid == g

/-- A process whose parent, resolved through its group, is `caller`. -/
def RunQueue.isChild (rq : RunQueue) (caller : Nat) (sel : WaitSel) (t : Task) : Bool :=
  t.isLeader && rq.resolve t.ppid == caller && sel.accepts t.pid t.pgid

/-- A record a wait of `caller` may hand out. -/
def ExitRecord.awaits (caller : Nat) (sel : WaitSel) (r : ExitRecord) : Bool :=
  r.parentTgid == caller && sel.accepts r.pid r.pgid

/-- A waiter was handed the exit of a task that is still on the queue. -/
def Task.reportExit (t : Task) : Task := { t with waitReported := true }

/-- A waiter was handed the stop. -/
def Task.reportStop (t : Task) : Task := { t with stopReported := true }

/-- A waiter was handed the continue. -/
def Task.reportContinue (t : Task) : Task := { t with contPending := false }

namespace Kernel

/-- The exit log's half of `wait_scan`. -/
def waitLog (k : Kernel) (sel : WaitSel) (caller : Nat) (consume : Bool) :
    Option ((Nat × ExitStatus) × Kernel) :=
  match k.exitLog.zombies.find? (·.awaits caller sel) with
  | some (i, e) =>
    some ((e.pid, e.status), if consume then { k with exitLog := k.exitLog.consumeZombie i } else k)
  | none =>
    if k.exitLog.spilled then
      match k.exitLog.recent.find? fun r => r.pending && r.awaits caller sel with
      | some (i, e) =>
        some ((e.pid, e.status), if consume then { k with exitLog := k.exitLog.consumeSpilled i }
          else k)
      | none => none
    else none

/-- The job-control reports of `wait_scan`, and its answer when there is nothing to report. -/
def waitState (k : Kernel) (sel : WaitSel) (caller : Nat) (consume : Bool) (what : WaitWhat)
    (foundLive : Bool) : WaitTry × Kernel :=
  let live (t : Task) : Bool := k.rq.isChild caller sel t && t.state != .zombie
  match k.rq.tasks.find? fun t =>
      live t && what.stopped && t.stopSignal != 0 && !t.stopReported with
  | some (i, t) =>
    (.stopped t.pid t.stopSignal, if consume then k.onQueue (·.modifyAt i Task.reportStop) else k)
  | none =>
    match k.rq.tasks.find? fun t => live t && what.continued && t.contPending with
    | some (i, t) =>
      (.continued t.pid, if consume then k.onQueue (·.modifyAt i Task.reportContinue) else k)
    | none => (if foundLive then .stillRunning else .noChildren, k)

/-- `wait_scan`; `wait_try` consumes, `wait_peek` does not. -/
def waitScan (k : Kernel) (sel : WaitSel) (caller : Nat) (consume : Bool) (what : WaitWhat) :
    WaitTry × Kernel :=
  let child := k.rq.isChild caller sel
  let foundLive := k.rq.slots.any fun t => child t && t.state != .zombie
  let zombie := k.rq.tasks.find? fun t => child t && t.state == .zombie && !t.waitReported
  if what.exited then
    match zombie with
    | some (i, t) =>
      (.reaped t.pid t.exitStatus, if consume then k.onQueue (·.modifyAt i Task.reportExit) else k)
    | none =>
      match k.waitLog sel caller consume with
      | some ((pid, status), k') => (.reaped pid status, k')
      | none => k.waitState sel caller consume what foundLive
  else
    -- A terminated child the caller did not ask about still counts as a child.
    k.waitState sel caller consume what (foundLive || zombie.isSome)

/-! ### What an attempt can answer -/

/-- The answers of a wait attempt, with what holds then and what the attempt changes. -/
inductive WaitOutcome (k : Kernel) (sel : WaitSel) (caller : Nat) (consume : Bool)
    (what : WaitWhat) : WaitTry × Kernel → Prop
  /-- A dead child that is still on the run queue. -/
  | zombie {i : Nat} {t : Task} (ht : k.rq.tasks.get? i = some t)
      (hchild : k.rq.isChild caller sel t = true) (hz : t.state = .zombie)
      (hr : t.waitReported = false) :
      WaitOutcome k sel caller consume what (.reaped t.pid t.exitStatus,
        if consume then k.onQueue (·.modifyAt i Task.reportExit) else k)
  /-- A record of the pool. -/
  | record {i : Nat} {e : ExitRecord} (he : k.exitLog.zombies.get? i = some e)
      (ha : e.awaits caller sel = true) :
      WaitOutcome k sel caller consume what (.reaped e.pid e.status,
        if consume then { k with exitLog := k.exitLog.consumeZombie i } else k)
  /-- A record that spilled into the ring. -/
  | spilled {i : Nat} {e : ExitRecord} (hs : k.exitLog.spilled = true)
      (he : k.exitLog.recent.get? i = some e) (hp : e.pending = true)
      (ha : e.awaits caller sel = true) :
      WaitOutcome k sel caller consume what (.reaped e.pid e.status,
        if consume then { k with exitLog := k.exitLog.consumeSpilled i } else k)
  | stopped {i : Nat} {t : Task} (ht : k.rq.tasks.get? i = some t)
      (hchild : k.rq.isChild caller sel t = true) (hs : t.stopSignal ≠ 0)
      (hr : t.stopReported = false) :
      WaitOutcome k sel caller consume what (.stopped t.pid t.stopSignal,
        if consume then k.onQueue (·.modifyAt i Task.reportStop) else k)
  | continued {i : Nat} {t : Task} (ht : k.rq.tasks.get? i = some t)
      (hchild : k.rq.isChild caller sel t = true) (hc : t.contPending = true) :
      WaitOutcome k sel caller consume what (.continued t.pid,
        if consume then k.onQueue (·.modifyAt i Task.reportContinue) else k)
  | stillRunning : WaitOutcome k sel caller consume what (.stillRunning, k)
  /-- Nothing on the queue, and if exits were asked for, nothing in the log. -/
  | noChildren
      (hq : ∀ t ∈ k.rq, k.rq.isChild caller sel t = true →
        t.state = .zombie ∧ t.waitReported = true)
      (hl : what.exited = true → ∀ i e, k.exitLog.zombies.get? i = some e →
        e.awaits caller sel = false)
      (hsp : what.exited = true → k.exitLog.spilled = true → ∀ i e,
        k.exitLog.recent.get? i = some e → e.pending = true → e.awaits caller sel = false) :
      WaitOutcome k sel caller consume what (.noChildren, k)

section

variable {k : Kernel} {sel : WaitSel} {caller : Nat} {consume : Bool} {what : WaitWhat}

theorem waitLog_none (h : k.waitLog sel caller consume = none) :
    (∀ i e, k.exitLog.zombies.get? i = some e → e.awaits caller sel = false) ∧
      (k.exitLog.spilled = true → ∀ i e, k.exitLog.recent.get? i = some e → e.pending = true →
        e.awaits caller sel = false) := by
  unfold waitLog at h
  split at h
  · contradiction
  · next hz =>
    refine ⟨find?_eq_none.mp hz, fun hs i e he hp => ?_⟩
    rw [if_pos hs] at h
    split at h
    · contradiction
    · next hr => simpa [hp] using find?_eq_none.mp hr i e he

theorem waitLog_some {r : (Nat × ExitStatus) × Kernel} (h : k.waitLog sel caller consume = some r) :
    WaitOutcome k sel caller consume what (.reaped r.1.1 r.1.2, r.2) := by
  unfold waitLog at h
  split at h
  · next i e he =>
    cases h
    obtain ⟨hget, ha⟩ := find?_eq_some he
    exact .record hget ha
  obtain ⟨hs, h⟩ := Option.ite_none_right_eq_some.mp h
  split at h
  · next i e he =>
    cases h
    obtain ⟨hget, hp⟩ := find?_eq_some he
    rw [Bool.and_eq_true] at hp
    exact .spilled hs hget hp.1 hp.2
  · contradiction

/-- The second half of a scan, once the exits have been looked at. -/
theorem waitState_outcome {foundLive : Bool}
    (hq : foundLive = false → ∀ t ∈ k.rq, k.rq.isChild caller sel t = true →
      t.state = .zombie ∧ t.waitReported = true)
    (hl : what.exited = true → ∀ i e, k.exitLog.zombies.get? i = some e →
      e.awaits caller sel = false) (hsp : what.exited = true → k.exitLog.spilled = true → ∀ i e,
      k.exitLog.recent.get? i = some e → e.pending = true → e.awaits caller sel = false) :
    WaitOutcome k sel caller consume what (k.waitState sel caller consume what foundLive) := by
  simp only [waitState]
  split
  · next i t hf =>
    obtain ⟨hget, hp⟩ := find?_eq_some hf
    simp only [Bool.and_eq_true, bne_iff_ne, Bool.not_eq_true'] at hp
    exact .stopped hget hp.1.1.1.1 hp.1.2 hp.2
  split
  · next i t hf =>
    obtain ⟨hget, hp⟩ := find?_eq_some hf
    simp only [Bool.and_eq_true] at hp
    exact .continued hget hp.1.1.1 hp.2
  -- nothing to report: a child is still running, or there is none at all
  · cases foundLive with
    | true => exact .stillRunning
    | false => exact .noChildren (hq rfl) hl hsp

/-- Every answer of a wait attempt is one of the outcomes. -/
theorem waitScan_outcome (k : Kernel) (sel : WaitSel) (caller : Nat) (consume : Bool)
    (what : WaitWhat) :
    WaitOutcome k sel caller consume what (k.waitScan sel caller consume what) := by
  -- With no live child and no unreported zombie, every child left is a reported zombie.
  have hrep : (k.rq.slots.any fun t => k.rq.isChild caller sel t && t.state != .zombie) = false →
      (k.rq.tasks.find? fun t =>
        k.rq.isChild caller sel t && t.state == .zombie && !t.waitReported) = none →
      ∀ t ∈ k.rq, k.rq.isChild caller sel t = true → t.state = .zombie ∧ t.waitReported = true := by
    intro hlive hz t ht hc
    have h1 : t.state = .zombie := by
      by_contra hne
      have := List.any_eq_false.mp hlive t (RunQueue.mem_slots.mpr ht)
      simp [hc, hne] at this
    obtain ⟨i, hi⟩ := ht
    have := find?_eq_none.mp hz i t hi
    exact ⟨h1, by simpa [hc, h1] using this⟩
  simp only [waitScan]
  split
  · next hex =>
    split
    · next i t hf =>
      obtain ⟨hget, hp⟩ := find?_eq_some hf
      simp only [Bool.and_eq_true, beq_iff_eq, Bool.not_eq_true'] at hp
      exact .zombie hget hp.1.1 hp.1.2 hp.2
    · next hz =>
      split
      · next hlog => exact waitLog_some hlog
      · next hlog =>
        obtain ⟨hl, hsp⟩ := waitLog_none hlog
        exact waitState_outcome (fun hlive => hrep hlive hz) (fun _ => hl) fun _ => hsp
  · next hex =>
    refine waitState_outcome (fun hlive => ?_) (fun h => absurd h hex) fun h => absurd h hex
    rw [Bool.or_eq_false_iff] at hlive
    exact hrep hlive.1 (by simpa using hlive.2)

end

end Kernel

end Leandros.Sched
