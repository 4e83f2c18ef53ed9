import Leandros.Sched.Kernel

/-!
# Leandros.Sched.Parking

**Parking on a channel** (`sched/src/runqueue.rs`). A task that waits is `Blocked` with the
channel it waits on, the instant it wants to be woken at, and a mask of what it waits for.
Wakers walk the queue for the tasks that they are about; to do so they visit only the slots
in `parked`, which may name more slots than it has to and must not name fewer (`Sound`).

Two channels are not ports: that of `poll` and its relatives, and that of the kernel's own
sleeping locks.
-/

namespace Leandros.Sched

open RunQueue
open OrdMap

/-- `POLL_WAIT_CHANNEL`. -/
def pollWaitChannel : Nat := 0xFFFFFF01

/-- `KWAIT_CHANNEL`. -/
def kwaitChannel : Nat := 0xFFFFFF03

namespace Task

/-- `wake_scannable`. -/
def wakeScannable (t : Task) : Bool :=
  t.state == .blocked &&
    (t.blockedOn.isSome || (t.blockedFutex != 0 && t.pollDeadline != noDeadline))

/-- The task is parked on `port`. -/
def parkedOn (t : Task) (port : Nat) : Bool := t.blockedOn == some port && t.state == .blocked

/-- A thread parks in a futex wait. -/
def parkOnFutex (t : Task) (uaddr deadline : Nat) : Task :=
  { t with state := .blocked, blockedFutex := uaddr, blockedOn := none, pollDeadline := deadline }

/-- What a wake leaves of a park. -/
def unparked (t : Task) : Task :=
  { t with state := .ready, blockedOn := none, pollDeadline := noDeadline, pollMask := pollTagAll }

/-- `is_poll` of `wake_due_poll_deadlines`. -/
def pollWaits (t : Task) (port : Nat) : Bool :=
  t.blockedOn == some port || t.blockedOn == some kwaitChannel

/-- The deadline tick looks at the task. -/
def timedWaits (t : Task) (port : Nat) : Bool := t.pollWaits port || t.blockedFutex != 0

/-- The deadline tick wakes the task. -/
def isDue (t : Task) (port now : Nat) (timerfdTags : BitVec 64) : Bool :=
  (t.pollWaits port && (t.pollMask &&& timerfdTags) != 0) || decide (t.pollDeadline ≤ now)

/-- What the deadline tick leaves of a park. -/
def expired (t : Task) (port : Nat) : Task :=
  { t with
    state := .ready
    blockedOn := if t.pollWaits port then none else t.blockedOn
    pollMask := if t.pollWaits port then pollTagAll else t.pollMask
    blockedFutex := 0
    pollDeadline := noDeadline }

theorem wakeScannable_of_parkedOn {t : Task} {port : Nat} (h : t.parkedOn port = true) :
    t.wakeScannable = true := by
  simp only [parkedOn, Bool.and_eq_true, beq_iff_eq] at h
  simp [wakeScannable, h.1, h.2]

end Task

/-- The run queue with the candidate set of the wake scans. -/
structure Channels where
  rq : RunQueue
  parked : Nat → Bool

namespace Channels

/-- `block_on_port_until`. -/
def blockOnPortUntil (c : Channels) (pid port deadline : Nat) (mask : BitVec 64) : Channels :=
  match c.rq.findPidIdx pid with
  | some i =>
    { rq := c.rq.blockOnPortUntil pid port deadline mask
      parked := Function.update c.parked i true }
  | none => c

/-- `block_on_port_cancel`. -/
def blockOnPortCancel (c : Channels) (pid : Nat) : Channels :=
  { c with rq := c.rq.blockOnPortCancel pid }

/-- `note_timed_wait`. -/
def noteTimedWait (c : Channels) (pid : Nat) : Channels :=
  match c.rq.findPidIdx pid with
  | some i => { c with parked := Function.update c.parked i true }
  | none => c

/-- The commit of `futex_wait_intr`. -/
def blockOnFutex (c : Channels) (pid uaddr : Nat) (deadline : Option Nat) : Channels :=
  let c := { c with rq := c.rq.modifyPid pid (·.parkOnFutex uaddr (deadline.getD noDeadline)) }
  if deadline.isSome then c.noteTimedWait pid else c

/-- A walk over `parked_slots()`. -/
def walk (c : Channels) (f : Task → Task) : Channels :=
  { c with
    rq := { c.rq with tasks := c.rq.tasks.mapVals fun i t => if c.parked i then f t else t } }

/-- A walk that also clears the bits of the slots that need not be visited. -/
def scan (c : Channels) (f : Task → Task) : Channels :=
  { rq :=
      { c.rq with
        tasks := c.rq.tasks.mapVals fun i t => if c.parked i && t.wakeScannable then f t else t }
    parked := fun i => c.parked i && ((c.rq.tasks.get? i).map Task.wakeScannable).getD true }

/-- `unblock_port_tagged`. -/
def unblockPortTagged (c : Channels) (port : Nat) (tag : BitVec 64) : Channels :=
  c.scan fun t =>
    if t.parkedOn port && ((t.pollMask &&& tag) != 0 || tag == pollTagAll) then t.unparked else t

/-- `wake_kwaiter`. -/
def wakeKwaiter (c : Channels) (pid : Nat) : Channels :=
  { c with rq := c.rq.modifyPid pid fun t => if t.parkedOn kwaitChannel then t.unparked else t }

/-- `wake_all_kwaiters`. -/
def wakeAllKwaiters (c : Channels) : Channels :=
  c.walk fun t => if t.parkedOn kwaitChannel then t.unparked else t

/-- `widen_port_masks`. -/
def widenPortMasks (c : Channels) (port : Nat) (matchTag add : BitVec 64) : Channels :=
  c.walk fun t =>
    if t.parkedOn port && (t.pollMask &&& matchTag) != 0 then
      { t with pollMask := t.pollMask ||| add }
    else t

/-- The earliest deadline that a deadline tick leaves. -/
def earliest (c : Channels) (port now : Nat) (timerfdTags : BitVec 64) : Nat :=
  c.rq.tasks.entries.foldl
    (fun newMin e =>
      if c.parked e.1 && e.2.wakeScannable && e.2.timedWaits port && !e.2.isDue port now timerfdTags
          && decide (e.2.pollDeadline < newMin) then
        e.2.pollDeadline
      else newMin)
    noDeadline

/-- `wake_due_poll_deadlines`. -/
def wakeDuePollDeadlines (c : Channels) (port now : Nat) (timerfdTags : BitVec 64) :
    Nat × Channels :=
  (c.earliest port now timerfdTags, c.scan fun t =>
      if t.timedWaits port && t.isDue port now timerfdTags then t.expired port else t)

/-! ### What a step does to a slot -/

variable {i : Nat} {f : Task → Task} {t' : Task}

/-- A slot of the queue after a change to one pid. -/
theorem slot_modifyPid {rq : RunQueue} (hd : rq.Distinct) {pid : Nat}
    (h : (rq.modifyPid pid f).tasks.get? i = some t') :
    (∃ t, rq.tasks.get? i = some t ∧ t.pid = pid ∧ f t = t') ∨
      rq.tasks.get? i = some t' ∧ t'.pid ≠ pid := by
  rw [hd.modifyPid_eq] at h
  simp only [mapTasks, get?_mapVals] at h
  obtain ⟨t, ht, rfl⟩ := Option.map_eq_some_iff.mp h
  by_cases hp : t.pid = pid
  · rw [if_pos hp]
    exact .inl ⟨t, ht, hp, rfl⟩
  · rw [if_neg hp]
    exact .inr ⟨ht, hp⟩

variable {c : Channels}

theorem slot_walk (h : (c.walk f).rq.tasks.get? i = some t') :
    ∃ t, c.rq.tasks.get? i = some t ∧ t' = if c.parked i then f t else t := by
  simp only [walk, get?_mapVals] at h
  obtain ⟨t, ht, rfl⟩ := Option.map_eq_some_iff.mp h
  exact ⟨t, ht, rfl⟩

theorem slot_scan (h : (c.scan f).rq.tasks.get? i = some t') :
    ∃ t, c.rq.tasks.get? i = some t ∧ t' = if c.parked i && t.wakeScannable then f t else t := by
  simp only [scan, get?_mapVals] at h
  obtain ⟨t, ht, rfl⟩ := Option.map_eq_some_iff.mp h
  exact ⟨t, ht, rfl⟩

/-! ### The candidate set -/

/-- Pids are distinct, and the candidate set names every slot that a wake has to find. -/
structure Sound (c : Channels) : Prop where
  distinct : c.rq.Distinct
  covers : ∀ {i t}, c.rq.tasks.get? i = some t → t.wakeScannable = true → c.parked i = true

namespace Sound

variable {f : Task → Task}

variable (h : c.Sound)
include h

/-- A change of one task that leaves nothing new to find, or sets the bit. -/
theorem modifyPid (pid : Nat) {parked : Nat → Bool}
    (hpid : ∀ t, (f t).pid = t.pid) (hp : ∀ i, c.parked i = true → parked i = true)
    (hf : ∀ i t, c.rq.tasks.get? i = some t → t.pid = pid → (f t).wakeScannable = true →
      t.wakeScannable = true ∨ parked i = true) : Sound { rq := c.rq.modifyPid pid f, parked } := by
  refine ⟨?_, fun {i t'} ht' hw => ?_⟩
  · rw [h.distinct.modifyPid_eq]
    refine h.distinct.mapTasks fun t _ => ?_
    split
    · exact hpid t
    · rfl
  · rcases slot_modifyPid h.distinct ht' with ⟨t, ht, hpt, rfl⟩ | ⟨ht, -⟩
    · rcases hf i t ht hpt hw with hs | hs
      · exact hp i (h.covers ht hs)
      · exact hs
    · exact hp i (h.covers ht hw)

theorem mapVals {g : Nat → Task → Task} (hg : ∀ i t, (g i t).pid = t.pid) :
    Distinct { c.rq with tasks := c.rq.tasks.mapVals g } := by
  intro i j t u ht hu hp
  simp only [get?_mapVals, Option.map_eq_some_iff] at ht hu
  obtain ⟨t', ht', rfl⟩ := ht
  obtain ⟨u', hu', rfl⟩ := hu
  rw [hg, hg] at hp
  exact h.distinct i j t' u' ht' hu' hp

section

variable (hpid : ∀ t, (f t).pid = t.pid)
  (hf : ∀ t, (f t).wakeScannable = true → t.wakeScannable = true)
include hpid hf

theorem walk : (c.walk f).Sound := by
  refine ⟨h.mapVals fun i t => ?_, fun {i t'} ht' hw => ?_⟩
  · split
    · exact hpid t
    · rfl
  · obtain ⟨t, ht, rfl⟩ := slot_walk ht'
    split at hw
    · exact h.covers ht (hf t hw)
    · exact h.covers ht hw

theorem scan : (c.scan f).Sound := by
  refine ⟨h.mapVals fun i t => ?_, fun {i t'} ht' hw => ?_⟩
  · split
    · exact hpid t
    · rfl
  · obtain ⟨t, ht, rfl⟩ := slot_scan ht'
    have hs : t.wakeScannable = true := by
      split at hw
      · exact hf t hw
      · exact hw
    simp [Channels.scan, ht, hs, h.covers ht hs]

end

/-- Setting the bit of a pid's slot covers whatever that task does. -/
theorem modifyPid_noted {pid i : Nat} {u : Task} (hu : c.rq.tasks.get? i = some u)
    (hup : u.pid = pid) (hpid : ∀ t, (f t).pid = t.pid) :
    Sound { rq := c.rq.modifyPid pid f, parked := Function.update c.parked i true } := by
  refine h.modifyPid pid hpid (fun j hj => ?_) fun j t ht hp _ => .inr ?_
  · rw [Function.update_apply]
    split
    · rfl
    · exact hj
  · rw [h.distinct j i t u ht hu (hp.trans hup.symm), Function.update_self]

theorem blockOnPortUntil (pid port deadline : Nat) (mask : BitVec 64) :
    (c.blockOnPortUntil pid port deadline mask).Sound := by
  unfold Channels.blockOnPortUntil
  split
  · next i hi =>
    obtain ⟨u, hu, hup⟩ := findPidIdx_eq_some hi
    exact h.modifyPid_noted hu hup fun _ => rfl
  · exact h

theorem blockOnPortCancel (pid : Nat) : (c.blockOnPortCancel pid).Sound :=
  h.modifyPid pid (fun _ => rfl) (fun _ => id) fun _ _ _ _ hw =>
    absurd hw (by simp [Task.wakeScannable])

theorem blockOnFutex (pid uaddr : Nat) (deadline : Option Nat) :
    (c.blockOnFutex pid uaddr deadline).Sound := by
  unfold Channels.blockOnFutex
  cases deadline with
  -- without a deadline no scan has to see it
  | none =>
    exact h.modifyPid pid (fun _ => rfl) (fun _ => id) fun _ _ _ _ hw =>
      absurd hw (by simp [Task.wakeScannable, Task.parkOnFutex])
  | some d =>
    simp only [Option.isSome_some, if_true, noteTimedWait]
    split
    · -- with one, its slot is noted
      next i hi =>
      obtain ⟨u', hu', hup'⟩ := findPidIdx_eq_some hi
      rcases slot_modifyPid h.distinct hu' with ⟨u, hu, hup, -⟩ | ⟨-, hne⟩
      · exact h.modifyPid_noted hu hup fun _ => rfl
      · exact absurd hup' hne
    · next hi =>
      refine h.modifyPid pid (fun _ => rfl) (fun _ => id) fun i t ht hp _ => ?_
      have hmem : t.parkOnFutex uaddr d ∈ c.rq.modifyPid pid (·.parkOnFutex uaddr d) := by
        refine ⟨i, ?_⟩
        rw [h.distinct.modifyPid_eq, mapTasks, get?_mapVals, ht, Option.map_some, if_pos hp]
      have hp' : (t.parkOnFutex uaddr d).pid = pid := hp
      exact absurd hp' (findPidIdx_eq_none.mp hi _ hmem)

theorem unblockPortTagged (port : Nat) (tag : BitVec 64) :
    (c.unblockPortTagged port tag).Sound := by
  refine h.scan (fun t => ?_) fun t hw => ?_
  · split <;> rfl
  · split at hw
    · contradiction
    · exact hw

theorem wakeKwaiter (pid : Nat) : (c.wakeKwaiter pid).Sound := by
  refine h.modifyPid pid (fun t => ?_) (fun _ => id) fun _ t _ _ hw => .inl ?_
  · split <;> rfl
  · split at hw
    · contradiction
    · exact hw

theorem wakeAllKwaiters : c.wakeAllKwaiters.Sound := by
  refine h.walk (fun t => ?_) fun t hw => ?_
  · split <;> rfl
  · split at hw
    · contradiction
    · exact hw

theorem widenPortMasks (port : Nat) (matchTag add : BitVec 64) :
    (c.widenPortMasks port matchTag add).Sound := by
  refine h.walk (fun t => ?_) fun t hw => ?_
  · split <;> rfl
  · split at hw <;> exact hw

theorem wakeDuePollDeadlines (port now : Nat) (timerfdTags : BitVec 64) :
    (c.wakeDuePollDeadlines port now timerfdTags).2.Sound := by
  refine h.scan (fun t => ?_) fun t hw => ?_
  · split <;> rfl
  · split at hw
    · contradiction
    · exact hw

end Sound

/-! ### Wakes -/

/-- Whoever a tagged wake is about is not parked after it. -/
theorem slot_unblockPortTagged (h : c.Sound) {port : Nat} {tag : BitVec 64}
    (ht' : (c.unblockPortTagged port tag).rq.tasks.get? i = some t') :
    (c.rq.tasks.get? i = some t' ∧
        (t'.parkedOn port = true → t'.pollMask &&& tag = 0 ∧ tag ≠ pollTagAll)) ∨
      ∃ t, c.rq.tasks.get? i = some t ∧ t.parkedOn port = true ∧ t' = t.unparked := by
  obtain ⟨t, ht, rfl⟩ := slot_scan ht'
  by_cases hpar : t.parkedOn port = true
  · have hw := Task.wakeScannable_of_parkedOn hpar
    simp only [h.covers ht hw, hw, if_true, hpar, Bool.true_and]
    split
    · exact .inr ⟨t, ht, hpar, rfl⟩
    · next hno =>
      refine .inl ⟨ht, fun _ => ?_⟩
      simpa [Bool.or_eq_true, not_or] using hno
  · simp only [hpar, Bool.false_and, Bool.false_eq_true, if_false, ite_self]
    exact .inl ⟨ht, fun hp => hp.elim⟩

/-- The minimum of a deadline tick is below every deadline it leaves. -/
theorem earliest_le {port now : Nat} {tags : BitVec 64} {t : Task}
    (ht : c.rq.tasks.get? i = some t) (hp : c.parked i = true) (hw : t.wakeScannable = true)
    (hwait : t.timedWaits port = true) (hdue : t.isDue port now tags = false) :
    c.earliest port now tags ≤ t.pollDeadline := by
  have hmem := mem_entries.mpr ht
  unfold earliest
  generalize noDeadline = m
  revert hmem
  generalize c.rq.tasks.entries = l
  -- the fold only goes down
  have hle : ∀ (l : List (Nat × Task)) m, l.foldl (fun newMin e =>
      if c.parked e.1 && e.2.wakeScannable && e.2.timedWaits port && !e.2.isDue port now tags
          && decide (e.2.pollDeadline < newMin) then e.2.pollDeadline else newMin) m ≤ m := by
    intro l
    induction l with
    | nil => exact fun m => le_rfl
    | cons e l ih =>
      intro m
      rw [List.foldl_cons]
      split
      · next hc =>
        have : e.2.pollDeadline < m := by simp only [Bool.and_eq_true] at hc; simpa using hc.2
        exact (ih _).trans this.le
      · exact ih m
  -- and it is at most the deadline of every entry it passes
  induction l generalizing m with
  | nil => nofun
  | cons e l ih =>
    intro hmem
    rw [List.foldl_cons]
    rcases List.mem_cons.mp hmem with rfl | hmem
    · simp only [hp, hw, hwait, hdue, Bool.not_false, Bool.true_and]
      split
      · exact hle l _
      · next hn =>
        simp only [decide_eq_true_eq, not_lt] at hn
        exact (hle l m).trans hn
    · exact ih _ hmem

end Channels

end Leandros.Sched
