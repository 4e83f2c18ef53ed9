import Leandros.Sched.Life.Status

/-!
# Leandros.Sched.Life.Accounts

**Room for every exit.** The pool of exit records has as many entries as there may be
processes, and `admit_locked` counts both: the leaders on the queue (`process_count`) and
the records nobody has collected (`zombie_records`). A process that exits gives up its
place on the queue for one in the pool, so that the sum grows only where a process comes
into being. Two such places do not ask: `spawn`, and an exec whose leader is gone.

The counters are right in any case (`Accounted`), and while the sum is within the limit the
pool never spills.
-/

namespace Leandros.Sched

open Leandros.Sched.Task
open World
open OrdMap
open Option (all_some map_eq_some_iff map_map map_some)
open RunQueue

namespace RunQueue

/-- The number of tasks with `pid == tgid`. -/
def leaders (rq : RunQueue) : Nat := rq.tasks.total fun _ t => if t.pid = t.tgid then 1 else 0

/-- Every slot holds a task with the same pid and group. -/
structure SameIds (rq rq' : RunQueue) : Prop where
  slot : ∀ i, (rq'.tasks.get? i).map (fun t => (t.pid, t.tgid)) =
    (rq.tasks.get? i).map fun t => (t.pid, t.tgid)
  nproc : rq'.nproc = rq.nproc

namespace SameIds

variable {rq rq' rq'' : RunQueue}

theorem refl (rq : RunQueue) : rq.SameIds rq := ⟨fun _ => rfl, rfl⟩

theorem trans (h : rq.SameIds rq') (h' : rq'.SameIds rq'') : rq.SameIds rq'' :=
  ⟨fun i => (h'.slot i).trans (h.slot i), h'.nproc.trans h.nproc⟩

theorem leaders (h : rq.SameIds rq') : rq'.leaders = rq.leaders := by
  refine total_congr fun i => ?_
  have hi := h.slot i
  generalize rq.tasks.get? i = a at hi ⊢
  generalize rq'.tasks.get? i = b at hi ⊢
  cases a with
  | none =>
    obtain rfl := Option.map_eq_none_iff.mp hi
    rfl
  | some =>
    obtain ⟨t', rfl, he⟩ := map_eq_some_iff.mp hi
    obtain ⟨hp, hg⟩ := Prod.mk.inj he
    simp [hp, hg]

variable {f : Task → Task}

section

variable (hf : ∀ t, (f t).pid = t.pid ∧ (f t).tgid = t.tgid)
include hf

theorem mapTasks : rq.SameIds (rq.mapTasks f) := by
  refine ⟨fun i => ?_, rfl⟩
  simp only [RunQueue.mapTasks, get?_mapVals, map_map]
  congr 1
  funext t
  exact Prod.ext (hf t).1 (hf t).2

theorem modifyAt (i : Nat) : rq.SameIds (rq.modifyAt i f) := by
  refine ⟨fun j => ?_, rfl⟩
  simp only [RunQueue.modifyAt, get?_modify]
  split
  · next hj =>
    subst hj
    rw [map_map]
    congr 1
    funext t
    exact Prod.ext (hf t).1 (hf t).2
  · rfl

theorem modifyPid (pid : Nat) : rq.SameIds (rq.modifyPid pid f) := by
  unfold RunQueue.modifyPid
  split
  · exact modifyAt hf _
  · exact refl rq

end

theorem of_steady (h : rq.Steady rq') : rq.SameIds rq' := by
  refine ⟨fun i => ?_, h.nproc⟩
  have hi := h.slot i
  generalize rq.tasks.get? i = a at hi ⊢
  generalize rq'.tasks.get? i = b at hi ⊢
  cases hi with
  | none => rfl
  | some hst =>
    have hp := congrArg Life.pid hst.life
    have hg := congrArg Life.tgid hst.life
    exact congrArg some (Prod.ext hp hg)

end SameIds

section

variable (rq : RunQueue) (pid : Nat)

theorem sameIds_setCtx (c : Ctx) : rq.SameIds (rq.setCtx pid c) :=
  .modifyPid (f := fun t => { t with ctx := c }) (fun _ => ⟨rfl, rfl⟩) pid

theorem sameIds_stampGroup (signo : Nat) : rq.SameIds (rq.stampGroup pid signo) := by
  unfold stampGroup
  split
  · refine .mapTasks fun t => ?_
    split <;> exact ⟨rfl, rfl⟩
  · exact .refl rq

theorem sameIds_claimGroupExit {rq' : RunQueue} (h : rq.claimGroupExit pid = some rq') :
    rq.SameIds rq' := by
  unfold claimGroupExit at h
  split at h
  · split at h
    · split at h
      · contradiction
      · cases h
        refine .trans (.modifyPid ?_ _) (.modifyPid ?_ pid) <;> exact fun _ => ⟨rfl, rfl⟩
    · contradiction
  · contradiction

end

end RunQueue

namespace ExitLog

/-- The number of process exits nobody has been told of. -/
def pendings (log : ExitLog) : Nat :=
  log.zombies.total (fun _ e => if e.pending then 1 else 0) +
    log.recent.total fun _ e => if e.pending then 1 else 0

/-- The pool holds what is pending, the ring everything else, and nothing has spilled. -/
structure Tidy (log : ExitLog) : Prop where
  pool : ∀ i e, log.zombies.get? i = some e → e.pending = true
  ring : ∀ i e, log.recent.get? i = some e → e.pending = false
  spilled : log.spilled = false
  count : log.zombieRecords = log.zombies.total fun _ _ => 1

namespace Tidy

variable {log : ExitLog}

theorem new : ExitLog.new.Tidy := ⟨nofun, nofun, rfl, rfl⟩

variable (h : log.Tidy)
include h

theorem pendings : log.pendings = log.zombieRecords := by
  have hring : (log.recent.total fun _ e => if e.pending then 1 else 0) = 0 := by
    rw [total_eq_zero]
    intro i e he
    rw [h.ring i e he]
    rfl
  have hpool : (log.zombies.total fun _ e => if e.pending then 1 else 0) =
      log.zombies.total fun _ _ => 1 := by
    refine total_congr fun i => ?_
    cases he : log.zombies.get? i with
    | none => rfl
    | some e => simp [h.pool i e he]
  rw [ExitLog.pendings, hring, hpool, h.count, Nat.add_zero]

theorem pushRecent {r : ExitRecord} (hr : r.pending = false) : (log.pushRecent r).Tidy := by
  refine ⟨h.pool, fun i e he => ?_, h.spilled, h.count⟩
  simp only [ExitLog.pushRecent, get?_insert] at he
  split at he
  · cases he
    exact hr
  · exact h.ring i e he

/-- With room in the pool, a record finds its place there. -/
theorem insert {r : ExitRecord}
    (hroom : r.pending = true → log.zombieRecords < maxProcesses) : (log.insert r).Tidy ∧
      (log.insert r).zombieRecords = log.zombieRecords + if r.pending then 1 else 0 := by
  unfold ExitLog.insert
  by_cases hr : r.pending = true
  · -- a pending record goes to the pool, where the count says that there is a free entry
    have hfree : log.zombies.freeKey < maxProcesses := by
      have hle := log.zombies.freeKey_le
      have hlt := hroom hr
      rw [h.count] at hlt
      exact lt_of_le_of_lt hle hlt
    rw [if_pos hr, if_pos hfree, if_pos hr]
    refine ⟨⟨fun i e he => ?_, h.ring, h.spilled, ?_⟩, rfl⟩
    · simp only [get?_insert] at he
      split at he
      · cases he
        exact hr
      · exact h.pool i e he
    · have htot := total_insert (fun _ _ => 1) log.zombies log.zombies.freeKey r
      rw [get?_freeKey] at htot
      rw [h.count]
      exact htot.symm
  · -- anything else goes to the ring, which does not count
    rw [if_neg hr, if_neg hr]
    exact ⟨h.pushRecent (by simpa using hr), rfl⟩

theorem consumeZombie (i : Nat) :
    (log.consumeZombie i).Tidy ∧ (log.consumeZombie i).zombieRecords ≤ log.zombieRecords := by
  unfold ExitLog.consumeZombie
  cases hr : log.zombies.get? i with
  | none => exact ⟨h, le_rfl⟩
  | some =>
    -- one entry less in the pool, and one less in its count
    have htot := total_erase (fun _ _ => 1) log.zombies i
    rw [hr, weight_some] at htot
    have htidy : ExitLog.Tidy
        { log with zombies := log.zombies.erase i, zombieRecords := log.zombieRecords - 1 } := by
      refine ⟨fun j e he => ?_, h.ring, h.spilled, ?_⟩
      · simp only [get?_erase] at he
        split at he
        · contradiction
        · exact h.pool j e he
      · dsimp only
        rw [h.count]
        omega
    exact ⟨htidy.pushRecent (by simp [ExitRecord.pending]), Nat.sub_le ..⟩

theorem forEachPending {f : ExitRecord → ExitRecord}
    (hf : ∀ e, (f e).pending = e.pending) : (log.forEachPending f).Tidy := by
  unfold ExitLog.forEachPending
  rw [h.spilled]
  refine ⟨fun i e he => ?_, h.ring, rfl, ?_⟩
  · rw [get?_mapVals] at he
    obtain ⟨r, hr, rfl⟩ := map_eq_some_iff.mp he
    rw [hf]
    exact h.pool i r hr
  · rw [h.count]
    refine total_congr fun i => ?_
    rw [get?_mapVals]
    cases log.zombies.get? i <;> rfl

end Tidy

end ExitLog

/-! ### The books of the scheduler -/

/-- The counters are right, and the sum is within the limit. -/
structure Kernel.Accounted (k : Kernel) : Prop where
  procs : k.rq.nproc = k.rq.leaders
  tidy : k.exitLog.Tidy
  room : k.rq.leaders + k.exitLog.zombieRecords ≤ maxProcesses

namespace Kernel

variable {k : Kernel}

namespace Accounted

theorem queue (h : k.Accounted) {rq' : RunQueue} (hs : k.rq.SameIds rq') :
    ({ k with rq := rq' } : Kernel).Accounted := by
  refine ⟨?_, h.tidy, ?_⟩
  · rw [hs.nproc, hs.leaders]
    exact h.procs
  · rw [hs.leaders]
    exact h.room

variable {t : Task}

variable (h : k.Accounted)
include h

/-- A new task, which if it is a process has to find room. -/
theorem enqueue {rq' : RunQueue} (he : k.rq.enqueue t = some rq')
    (hroom : t.pid = t.tgid → k.rq.leaders + k.exitLog.zombieRecords < maxProcesses) {next : Nat} :
    ({ k with rq := rq', nextPid := next } : Kernel).Accounted := by
  obtain ⟨-, rfl⟩ := guard_eq_some he
  have htot := total_insert (fun _ t => if t.pid = t.tgid then 1 else 0) k.rq.tasks
    k.rq.tasks.freeKey t
  rw [get?_freeKey, weight_none, Nat.add_zero] at htot
  have hle := h.room
  refine ⟨?_, h.tidy, ?_⟩ <;> dsimp only [leaders] at * <;> rw [htot]
  · split <;> rw [h.procs, leaders]
    rw [Nat.add_zero]
  · split
    · next hl =>
      have := hroom hl
      omega
    · omega

/-- A process that is reaped hands its place on to its record. -/
theorem reap (i : Nat) : (k.reap i).Accounted := by
  unfold Kernel.reap
  cases ht : k.rq.tasks.get? i with
  | none => exact h
  | some t =>
    -- the slot that is freed takes a leader off the queue exactly if the task was one
    have htot := total_erase (fun _ t => if t.pid = t.tgid then 1 else 0) k.rq.tasks i
    rw [ht, weight_some] at htot
    have hle := h.room
    -- only a leader leaves a record that somebody has to collect
    have hpend : ∀ {pid status parent pgid consumed}, ExitRecord.pending
        ⟨pid, status, parent, pgid, t.isLeader, consumed⟩ = true → t.pid = t.tgid := by
      intro pid status parent pgid consumed hp
      simp only [ExitRecord.pending, Bool.and_eq_true] at hp
      exact beq_iff_eq.mp hp.1
    dsimp only [Kernel.logExit, Kernel.onQueue, remove, leaders] at *
    rw [ht]
    obtain ⟨htidy, hcount⟩ := h.tidy.insert fun hp => by
      rw [if_pos (hpend hp)] at htot
      omega
    refine ⟨?_, htidy, ?_⟩
    · have := h.procs
      dsimp only [leaders] at this ⊢
      split <;> rename_i hl <;> simp only [hl, if_true, if_false] at htot <;> omega
    · dsimp only [leaders]
      rw [hcount]
      split
      · next hp =>
        rw [if_pos (hpend hp)] at htot
        omega
      · omega

theorem onQueue {f : RunQueue → RunQueue} (hs : k.rq.SameIds (f k.rq)) :
    (k.onQueue f).Accounted := h.queue hs

theorem clone (thread : Bool) (hnew : t.tgid ≠ k.nextPid) : (k.cloneTask t thread).Accounted := by
  unfold Kernel.cloneTask
  have hnext : k.allocPid.2.Accounted := ⟨h.procs, h.tidy, h.room⟩
  dsimp only
  split
  · next hadm =>
    split
    · next rq' he =>
      refine h.enqueue he fun hl => ?_
      rw [← h.procs]
      cases thread with
      | true => exact absurd hl.symm hnew
      | false =>
        -- a process was admitted under the limit
        rw [Kernel.admitLocked, Bool.and_eq_true] at hadm
        exact of_decide_eq_true hadm.2
    · exact hnext
  · exact hnext

theorem spawn (hroom : k.rq.nproc + k.exitLog.zombieRecords < maxProcesses) :
    k.spawn.Accounted := by
  unfold Kernel.spawn
  dsimp only
  split
  · next rq' he =>
    refine h.enqueue he fun _ => ?_
    rw [← h.procs]
    exact hroom
  · exact ⟨h.procs, h.tidy, h.room⟩

theorem killMember (i : Nat) (t : Task) (code : Int) : (k.killMember i t code).2.Accounted := by
  have hmark : (k.onQueue (·.modifyAt i fun t =>
      { t with state := .zombie, groupKilled := true, exitCode := code })).Accounted := by
    refine h.onQueue (.modifyAt ?_ i)
    exact fun _ => ⟨rfl, rfl⟩
  unfold Kernel.killMember
  split
  · exact hmark
  · exact hmark.reap i

theorem killNextGroupMember (pid : Nat) (code : Int) (skip : Nat)
    (klocks : Nat → Nat) : (k.killNextGroupMember pid code skip klocks).2.Accounted := by
  unfold Kernel.killNextGroupMember
  split
  · exact h
  dsimp only
  split
  · exact h.killMember _ _ _
  split
  · exact h
  · split
    · exact h.killMember _ _ _
    · exact h

theorem switchOut (pid klocks : Nat) : (k.switchOut pid klocks).Accounted := by
  unfold Kernel.switchOut
  split
  · next i t ht =>
    have hoff : (k.onQueue (·.modifyAt i fun t => switchedOut t klocks)).Accounted := by
      refine h.onQueue (.modifyAt ?_ i)
      exact fun _ => ⟨rfl, rfl⟩
    split
    · exact hoff.reap i
    · exact hoff
  · exact h

theorem reparentPass (dead : Nat) (first : Bool) : (k.reparentPass dead first).2.Accounted := by
  unfold Kernel.reparentPass
  split
  · exact h
  have hq := h.queue (List.foldlRecOn ((childrenOf k.rq dead).take reparentBatch)
    (fun rq pid => rq.modifyPid pid fun t => { t with ppid := k.initPid }) (.refl k.rq)
    fun _ hids pid _ => hids.trans (.modifyPid (by exact fun _ => ⟨rfl, rfl⟩) pid))
  cases first with
  | false => exact hq
  | true =>
    refine ⟨hq.procs, ?_, hq.room⟩
    refine hq.tidy.forEachPending fun e => ?_
    split <;> rfl

/-- A wait keeps the accounts, whatever it answers. -/
theorem wait (sel : WaitSel) (caller : Nat) (consume : Bool) (what : WaitWhat) :
    (k.waitScan sel caller consume what).2.Accounted := by
  have hout := waitScan_outcome k sel caller consume what
  generalize k.waitScan sel caller consume what = r at hout
  cases hout with
  | zombie =>
    dsimp only
    split
    · exact h.onQueue (.modifyAt (f := reportExit) (fun _ => ⟨rfl, rfl⟩) _)
    · exact h
  | @record i =>
    split
    · obtain ⟨htidy, hle⟩ := h.tidy.consumeZombie i
      exact ⟨h.procs, htidy, le_trans (Nat.add_le_add_left hle _) h.room⟩
    · exact h
  | spilled hs =>
    -- a tidy log has nothing pending in the ring
    rw [h.tidy.spilled] at hs
    contradiction
  | stopped =>
    dsimp only
    split
    · exact h.onQueue (.modifyAt (f := reportStop) (fun _ => ⟨rfl, rfl⟩) _)
    · exact h
  | continued =>
    dsimp only
    split
    · exact h.onQueue (.modifyAt (f := reportContinue) (fun _ => ⟨rfl, rfl⟩) _)
    · exact h
  | stillRunning | noChildren => exact h

theorem claimExit (pid : Nat) (code : Int) (won : Ctx) : (k.claimExit pid code won).Accounted := by
  unfold Kernel.claimExit
  split
  · next rq' hc => exact h.queue (.trans (sameIds_claimGroupExit _ pid hc)
      (sameIds_setCtx _ pid won))
  · refine h.onQueue (.modifyPid ?_ pid)
    exact fun _ => ⟨rfl, rfl⟩

theorem actOn (pid sig : Nat) (action : SigAction) (frameOk : Bool) :
    (k.actOn pid sig action frameOk).Accounted := by
  unfold Kernel.actOn
  split
  · split
    · exact h.onQueue (sameIds_setCtx _ pid _)
    split
    · exact h.onQueue (.trans (.of_steady (steady_doSignalStop _ pid sig))
        (sameIds_setCtx _ pid _))
    · exact h.onQueue (.trans (sameIds_stampGroup _ pid sig)
        (sameIds_setCtx _ pid _))
  · split
    · exact h.onQueue (sameIds_setCtx _ pid _)
    · exact h.onQueue (.trans (.of_steady (steady_enterHandler _ pid sig action))
        (sameIds_setCtx _ pid _))

/-- The exchange of an exec: the caller takes the leader's place in the count. -/
theorem exchange {i j pid tgid : Nat} {me l : Task} (rec : ExitRecord) (hij : i ≠ j)
    (hme : k.rq.tasks.get? i = some me) (hl : k.rq.tasks.get? j = some l) (hp : me.pid = pid)
    (hne : pid ≠ tgid) (hmt : me.tgid = tgid) (hlp : l.pid = tgid) (hlt : l.tgid = tgid)
    (hrec : rec.isProcess = false) :
    Accounted { k with rq := exchanged k.rq i j pid tgid l, exitLog := k.exitLog.insert rec } := by
  have hnp : rec.pending = false := by
    rw [ExitRecord.pending, hrec]
    rfl
  obtain ⟨htidy, hcount⟩ := h.tidy.insert fun hpd => by
    rw [hnp] at hpd
    contradiction
  rw [hnp] at hcount
  let g : Nat → Task → Nat := fun _ t => if t.pid = t.tgid then 1 else 0
  let inherit (me : Task) : Task := inheritLeader l me tgid
  let retire (l : Task) : Task := { l with state := .zombie, exitCode := 0, pid := pid }
  let hand := handTo pid tgid
  have hhand : ∀ t, (hand t).pid = t.pid ∧ (hand t).tgid = t.tgid := fun t =>
    ⟨(handTo_same pid tgid t).1, (handTo_same pid tgid t).2.1⟩
  -- the caller is counted from now on, the leader no longer
  have h₁ := total_modify g k.rq.tasks i inherit
  rw [hme, map_some, weight_some, weight_some] at h₁
  have hj : (k.rq.tasks.modify i inherit).get? j = some l := by
    rw [get?_modify, if_neg (Ne.symm hij)]
    exact hl
  have h₂ := total_modify g (k.rq.tasks.modify i inherit) j retire
  rw [hj, map_some, weight_some, weight_some] at h₂
  have hw₁ : g i me = 0 := if_neg (by rw [hp, hmt]; exact hne)
  have hw₂ : g i (inherit me) = 1 := if_pos hmt.symm
  have hw₃ : g j l = 1 := if_pos (hlp.trans hlt.symm)
  have hw₄ : g j (retire l) = 0 := if_neg (by rw [show (retire l).tgid = tgid from hlt]; exact hne)
  have h₃ : (((k.rq.modifyAt i inherit).modifyAt j retire).mapTasks hand).leaders =
      ((k.rq.modifyAt i inherit).modifyAt j retire).leaders :=
    (SameIds.mapTasks hhand).leaders
  have hget : (((k.rq.modifyAt i inherit).modifyAt j retire).mapTasks hand).tasks.get? j =
      some (hand (retire l)) := by
    simp [RunQueue.mapTasks, RunQueue.modifyAt, if_neg (Ne.symm hij), hl]
  have hnl : ¬(hand (retire l)).pid = (hand (retire l)).tgid := by
    rw [(hhand _).1, (hhand _).2]
    exact fun he => hne (he.trans hlt)
  have h₄ := total_erase g (((k.rq.modifyAt i inherit).modifyAt j retire).mapTasks hand).tasks j
  rw [hget, weight_some, show g j (hand (retire l)) = 0 from if_neg hnl] at h₄
  have hleaders : ((((k.rq.modifyAt i inherit).modifyAt j retire).mapTasks hand).remove j).leaders =
      k.rq.leaders := by
    rw [remove, hget]
    dsimp only [leaders, RunQueue.modifyAt] at h₃ h₄ ⊢
    change total g _ = total g _ at h₃
    change total g _ = total g _
    omega
  refine ⟨?_, htidy, ?_⟩
  · refine Eq.trans ?_ (h.procs.trans hleaders.symm)
    change ((((k.rq.modifyAt i inherit).modifyAt j retire).mapTasks hand).remove j).nproc = _
    rw [remove, hget]
    exact if_neg hnl
  · have hroom := h.room
    change ((((k.rq.modifyAt i inherit).modifyAt j retire).mapTasks hand).remove j).leaders +
      (k.exitLog.insert rec).zombieRecords ≤ maxProcesses
    rw [hleaders, hcount]
    exact hroom

/-- The books after `take_over_leader`; a promotion has to find room. -/
theorem takeOverLeader (hv : k.Valid) {pid tgid : Nat}
    (klocks : Nat → Nat) (ht : k.rq.findPid pid = some t) (htg : t.tgid = tgid) (hne : pid ≠ tgid)
    (hlead : ∀ l, k.rq.findPid tgid = some l → l.tgid = tgid) (hroom : k.rq.findPid tgid = none →
      k.rq.nproc + k.exitLog.zombieRecords < maxProcesses) :
    (k.takeOverLeader pid tgid klocks).2.Accounted := by
  obtain ⟨⟨i, hi⟩, hp⟩ := findPid_eq_some ht
  have hidx : k.rq.findPidIdx pid = some i := hp ▸ hv.distinct.findPidIdx hi
  simp only [Kernel.takeOverLeader, hidx]
  split
  · -- No leader on the queue: the caller becomes one, and the number of processes grows. This is the
    -- exec that needs room.
    next hnone =>
    have hgone : k.rq.findPid tgid = none := findPid_eq_none.mpr fun u hu => by
      obtain ⟨s, hu⟩ := hu
      simpa using find?_eq_none.mp hnone s u hu
    have hlt := hroom hgone
    have htot := total_modify (fun _ t => if t.pid = t.tgid then 1 else 0) k.rq.tasks i
      fun me => { me with tgid := pid, groupExitOwner := 0 }
    rw [hi, map_some, weight_some, weight_some,
      if_neg (by rw [hp, htg]; exact hne), if_pos hp] at htot
    have hprocs := h.procs
    refine ⟨?_, h.tidy, ?_⟩
    · dsimp only [Kernel.onQueue, noteLeaderPromoted, RunQueue.modifyAt, leaders] at hprocs ⊢
      omega
    · dsimp only [Kernel.onQueue, noteLeaderPromoted, RunQueue.modifyAt, leaders] at hprocs ⊢
      omega
  · -- The leader is there: the two trade places, now or later, and the number stays.
    next j l hf =>
    obtain ⟨hj, hlb⟩ := find?_eq_some hf
    have hl : l.pid = tgid := beq_iff_eq.mp hlb
    have hij : i ≠ j := by
      intro heq
      rw [heq] at hi
      cases hi.symm.trans hj
      exact hne (hp.symm.trans hl)
    split
    · exact h
    split
    · exact h.onQueue (f := (·.modifyAt j fun l => { l with stopPending := true }))
        (.modifyAt (f := fun l => { l with stopPending := true }) (fun _ => ⟨rfl, rfl⟩) j)
    · exact h.exchange ⟨pid, ⟨0, 0⟩, _, l.pgid, false, false⟩ hij hi hj hp hne htg hl
        (hlead l (hl ▸ hv.distinct.findPid ⟨j, hj⟩)) rfl

end Accounted

/-- There is room for one more process. -/
def hasRoom (k : Kernel) : Bool := decide (k.rq.nproc + k.exitLog.zombieRecords < maxProcesses)

/-- The exec of `pid` finds no leader any more. -/
def promotes (k : Kernel) (pid : Nat) : Bool :=
  (k.rq.findPid pid).all fun t => !t.isLeader && (k.rq.findPid t.tgid).isNone

/-- A step keeps the accounts if what it creates has room and a new pid. -/
theorem Accounted.step {k' : Kernel} {a : Action} (h : k.Accounted) (hg : k.Governed)
    (hfresh : a.creates = true → ∀ t ∈ k.rq, t.tgid ≠ k.nextPid)
    (hspawn : a = .spawn → k.hasRoom = true)
    (hpro : ∀ pid klocks, a = .takeOver pid klocks → k.promotes pid = true → k.hasRoom = true)
    (hs : k.step a = some k') : k'.Accounted := by
  -- Calm steps change the life of no task but for a thread that comes back from a stop.
  by_cases hcalm : a.calm = true
  · cases hg.valid.calm hcalm hs with
    | steady hst => exact h.onQueue (.of_steady hst)
    | revive ht hc hF =>
      refine h.onQueue (.modifyPid (fun u => ?_) _)
      exact ⟨congrArg Life.pid (hF u), congrArg Life.tgid (hF u)⟩
  cases a with
  | switchOut pid klocks =>
    obtain ⟨t, ht, -, -, rfl⟩ := thread_guard_eq_some hs
    exact h.switchOut pid klocks
  | act pid frameOk =>
    obtain ⟨t, ht, -, hs⟩ := thread_eq_some hs
    split at hs
    · cases hs
      exact h.actOn pid _ _ frameOk
    · contradiction
  | clone pid thread =>
    obtain ⟨t, ht, -, -, rfl⟩ := thread_guard_eq_some hs
    exact h.clone thread (hfresh rfl t (findPid_eq_some ht).1)
  | spawn =>
    cases hs
    exact h.spawn (of_decide_eq_true (hspawn rfl))
  | exitGroupSignal pid signo =>
    obtain ⟨t, ht, -, -, rfl⟩ := thread_guard_eq_some hs
    exact h.onQueue (.trans (k.rq.sameIds_stampGroup pid signo)
      (sameIds_setCtx _ pid _))
  | exitGroup pid =>
    obtain ⟨t, ht, -, hs⟩ := thread_eq_some hs
    split at hs
    · cases hs
      exact h.claimExit pid _ _
    · cases hs
      exact h.claimExit pid _ _
    · contradiction
  | reparent pid =>
    obtain ⟨t, ht, -, hs⟩ := thread_eq_some hs
    split at hs
    · cases hs
      exact (h.reparentPass t.tgid _).onQueue (sameIds_setCtx _ pid _)
    · cases hs
      exact (h.reparentPass t.tgid _).onQueue (sameIds_setCtx _ pid _)
    · contradiction
  | kill pid klocks =>
    obtain ⟨t, ht, -, hs⟩ := thread_eq_some hs
    -- what follows a kill moves the killer on and nothing else
    have hafter : ∀ {r : GroupKillStep × Kernel} (next : Ctx), r.2.Accounted →
        (afterKill pid next r).Accounted := by
      intro r next hr
      unfold afterKill
      split
      · exact hr.onQueue (sameIds_setCtx _ pid next)
      · exact hr
    split at hs
    · cases hs
      exact hafter _ (h.killNextGroupMember pid _ _ klocks)
    · cases hs
      exact hafter _ (h.killNextGroupMember pid _ _ klocks)
    · contradiction
  | exit pid =>
    obtain ⟨t, ht, -, hs⟩ := thread_eq_some hs
    have hmark : ∀ c, k.rq.SameIds (k.rq.markExit pid c) := by
      intro c
      refine .modifyPid ?_ pid
      exact fun _ => ⟨rfl, rfl⟩
    split at hs
    · cases hs
      exact h.onQueue (.trans (hmark _) (sameIds_setCtx _ pid _))
    · cases hs
      exact h.onQueue (.trans (hmark _) (sameIds_setCtx _ pid _))
    · contradiction
  | dethread pid =>
    obtain ⟨t, ht, -, -, rfl⟩ := thread_guard_eq_some hs
    exact h.claimExit pid _ _
  | takeOver pid klocks =>
    obtain ⟨t, ht, -, hs⟩ := thread_eq_some hs
    obtain ⟨-, hs⟩ := Option.ite_none_right_eq_some.mp hs
    split at hs
    · cases hs
      refine h.onQueue (.modifyPid ?_ pid)
      exact fun _ => ⟨rfl, rfl⟩
    · next hl =>
      cases hs
      have hp := (findPid_eq_some ht).2
      have hne : pid ≠ t.tgid := by
        intro he
        exact hl (beq_iff_eq.mpr (hp.trans he))
      -- the one step beside `spawn` that can add a leader
      have htake := h.takeOverLeader hg.valid klocks ht rfl hne
        (fun l hl => hg.owned.lead (cores_of (roster_eq_of_find ht))
          (cores_of (roster_eq_of_find hl)))
        (fun hnone => of_decide_eq_true (hpro pid klocks rfl (by
          simp only [promotes, ht, all_some, hnone]
          simpa using hl)))
      unfold afterTakeOver
      split
      · exact htake.onQueue (sameIds_setCtx _ pid _)
      · exact htake.onQueue (sameIds_setCtx _ t.tgid _)
      · exact htake
  | wait pid sel consume what =>
    obtain ⟨t, ht, -, -, rfl⟩ := thread_guard_eq_some hs
    exact h.wait sel t.tgid consume what
  | _ => exact absurd rfl hcalm

end Kernel

/-! ### Processes without a parent

A kernel thread has no parent, so nobody waits for it, and no orphan's record is handed to
init but that of a process that had a parent. -/

/-- A process without a parent is not on its way out, and no record names parent 0. -/
structure Rooted (w : World) : Prop where
  group : ∀ {q N}, w.roster q = some N → N.tgid ≠ 0
  lives : ∀ {g M}, w.roster g = some M → M.tgid = g → M.ppid = 0 → M.zombie = false
  stays : ∀ {g M q N}, w.roster g = some M → M.tgid = g → M.ppid = 0 → w.roster q = some N →
    N.tgid = g → N.phase.dying = none
  owed : ∀ {i e}, w.log.zombies.get? i = some e → e.parentTgid ≠ 0

namespace World

/-- Nobody ends a process that has no parent. -/
structure Spares (w : World) (a : Action) : Prop where
  wins : ∀ {p L M code c}, w.roster p = some L → Claims p L.phase a code (.reparenting c true) →
    w.roster L.tgid = some M → (M.owner = 0 ∨ M.owner = p) → M.ppid ≠ 0
  loses : ∀ {p L code win}, w.roster p = some L → Claims p L.phase a code win →
    (∀ M, w.roster L.tgid = some M → M.owner ≠ 0 ∧ M.owner ≠ p) → L.tgid = p → L.ppid ≠ 0
  exits : ∀ {p L c}, a = .exit p c → w.roster p = some L → L.tgid = p → L.ppid ≠ 0

end World

namespace Rooted

variable {w w' : World}

theorem resolve_ne (h : Rooted w) {n : Nat} (hn : n ≠ 0) : w.resolve n ≠ 0 := by
  unfold World.resolve
  cases hL : w.roster n with
  | none => exact hn
  | some => exact h.group hL

theorem pool_insert {log : ExitLog} {r e : ExitRecord} {i : Nat}
    (h : (log.insert r).zombies.get? i = some e) :
    e = r ∧ r.isProcess = true ∨ ∃ j, log.zombies.get? j = some e := by
  unfold ExitLog.insert at h
  split at h
  · next hp =>
    split at h
    · simp only [get?_insert] at h
      split at h
      · exact .inl ⟨(Option.some.inj h).symm, (Bool.and_eq_true_iff.mp hp).1⟩
      · exact .inr ⟨i, h⟩
    · exact .inr ⟨i, h⟩
  · exact .inr ⟨i, h⟩

section

variable (h : Rooted w)
include h

/-- A step that ends no process without a parent. -/
theorem frame
    (ht : ∀ q M', w'.roster q = some M' → ∃ M, w.roster q = some M ∧ M'.tgid = M.tgid ∧
      (M'.ppid = 0 → M.ppid = 0) ∧
      (M.tgid = q → M.ppid = 0 → M.zombie = false → M'.zombie = false) ∧
      (∀ R, w.roster M.tgid = some R → R.tgid = M.tgid → R.ppid = 0 → M.phase.dying = none →
        M'.phase.dying = none))
    (hl : ∀ i e, w'.log.zombies.get? i = some e → e.parentTgid ≠ 0) : Rooted w' := by
  constructor
  · intro q N' hN'
    -- groups are never renumbered, so no group becomes 0
    obtain ⟨N, hN, htg, -⟩ := ht q N' hN'
    rw [htg]
    exact h.group hN
  · intro g M' hM' hg hp
    -- a root that is alive stays alive
    obtain ⟨M, hM, htg, hpp, hz, -⟩ := ht g M' hM'
    have hg' : M.tgid = g := htg.symm.trans hg
    exact hz hg' (hpp hp) (h.lives hM hg' (hpp hp))
  · intro g M' q N' hM' hg hp hN' hN't
    obtain ⟨M, hM, htg, hpp, -⟩ := ht g M' hM'
    -- no member of a root's group starts to die
    obtain ⟨N, hN, hntg, -, -, hd⟩ := ht q N' hN'
    have hg' : M.tgid = g := htg.symm.trans hg
    have hNg : N.tgid = g := hntg.symm.trans hN't
    exact hd M (hNg ▸ hM) (hg'.trans hNg.symm) (hpp hp) (h.stays hM hg' (hpp hp) hN hNg)
  · exact fun {i e} => hl i e

variable {L : Life}

theorem edit {p : Nat} {f : Life → Life} (hL : w.roster p = some L)
    (hf : (f L).tgid = L.tgid ∧ (f L).ppid = L.ppid)
    (hz : L.tgid = p → L.ppid = 0 → L.zombie = false → (f L).zombie = false)
    (hd : ∀ R, w.roster L.tgid = some R → R.tgid = L.tgid → R.ppid = 0 → L.phase.dying = none →
      (f L).phase.dying = none) : Rooted (w.edit p f) := by
  refine h.frame (fun q M' hM' => ?_) fun i e => h.owed
  rcases edit_eq_some hL hM' with ⟨rfl, rfl⟩ | ⟨-, hM⟩
  · exact ⟨L, hL, hf.1, fun hp => hf.2.symm.trans hp, hz, hd⟩
  · exact ⟨M', hM, rfl, id, fun _ _ => id, fun _ _ _ _ => id⟩

theorem reap (hk : w.Keyed) {p : Nat} {M : Life} {auto : Bool}
    (hL : w.roster p = some L) (hM : M.pid = L.pid ∧ M.tgid = L.tgid ∧ M.ppid = L.ppid)
    (hp : L.tgid = p → L.ppid ≠ 0) : Rooted (w.reap M auto) := by
  refine h.frame (fun q M' hM' => ?_) fun i e he => ?_
  · exact ⟨M', of_reap hM', rfl, id, fun _ _ => id, fun _ _ _ _ => id⟩
  rcases pool_insert he with ⟨rfl, hpr⟩ | ⟨j, hj⟩
  · refine h.resolve_ne ?_
    rw [hM.2.2]
    refine hp ?_
    have hpr : (M.pid == M.tgid) = true := hpr
    rw [beq_iff_eq, hM.1, hM.2.1, hk p L hL] at hpr
    exact hpr.symm
  · exact h.owed hj

/-- One task is new, or leads a group of its own from now on. -/
theorem join {n : Nat}
    (back : ∀ {q N}, w'.roster q = some N → q = n ∧ N = L ∨ w.roster q = some N)
    (hlog : w'.log = w.log) (hnew : ∀ q N, w.roster q = some N → N.tgid ≠ n) (ht : L.tgid ≠ 0)
    (hz : L.zombie = false) (hph : L.phase = .elsewhere) : Rooted w' := by
  constructor
  · intro q N hN
    rcases back hN with ⟨-, rfl⟩ | hN
    · exact ht
    · exact h.group hN
  · intro g M hM hg hp
    rcases back hM with ⟨-, rfl⟩ | hM
    · exact hz
    · exact h.lives hM hg hp
  · intro g M q N hM hg hp hN hNg
    rcases back hN with ⟨-, rfl⟩ | hN
    -- the new task runs user code
    · rw [hph]
      rfl
    -- a new leader has no group yet
    · rcases back hM with ⟨hq, -⟩ | hM
      · exact absurd (hNg.trans hq) (hnew q N hN)
      · exact h.stays hM hg hp hN hNg
  · rw [hlog]
    exact h.owed

theorem enrol (hnew : w.Fresh) {next : Nat} (ht : L.tgid ≠ 0)
    (hz : L.zombie = false) (hph : L.phase = .elsewhere) :
    Rooted { w with roster := Function.update w.roster w.next (some L), next := next } := by
  refine h.join (fun hN => ?_) rfl hnew.noGroup ht hz hph
  exact (update_eq_some hN).imp (fun hq => ⟨hq.1, (Option.some.inj hq.2).symm⟩) And.right

/-- A kill loop does not reach a process without a parent. -/
theorem not_victim (hk : w.Keyed) {p q : Nat} {M : Life} {code : Int} {skip : Nat}
    {next : Ctx} (hL : w.roster p = some L) (hkl : Kills L code skip next)
    (hM : w.roster q = some M) (hg : M.tgid = L.tgid) (hp : q ≠ p) (hs : q ≠ skip)
    (hl : M.tgid = q) : M.ppid ≠ 0 := by
  intro h0
  have hd := h.stays hM hl h0 hL (hg.symm.trans hl)
  cases hkl with
  | group code hph =>
    rw [hph] at hd
    contradiction
  | dethread =>
    rw [if_neg] at hs
    · exact hs (hl.symm.trans hg)
    · rw [hk p L hL]
      exact fun he => hp (hl.symm.trans (hg.trans he.symm))

end

theorem dying_pass {first more : Bool} {next : Bool → Ctx} (hp : Passes L first next)
    (hd : L.phase.dying = none) : (next more).dying = none := by
  cases hp with
  | group code first hph =>
    rw [hph] at hd
    contradiction
  | leader => cases more <;> rfl

/-- A run never ends a process without a parent, if nobody asks for it. -/
theorem step {a : Action} (hk : w.Keyed) (hn : w.Numbered) (ho : Owned w.cores) (h : Rooted w)
    (hsp : w.Spares a) (hs : w.Step a w') : Rooted w' := by
  cases hs with
  | same => exact h
  | revive ha hL => exact h.edit hL ⟨rfl, rfl⟩ (fun _ _ _ => rfl) fun _ _ _ _ => id
  | @reapSelf p klocks L auto hL hz =>
    refine h.reap hk hL ⟨rfl, rfl, rfl⟩ fun hl h0 => ?_
    -- a root is no zombie, so it does not reap itself
    rw [h.lives hL hl h0] at hz
    contradiction
  | @stamp _ p =>
    refine h.frame (fun q M' hM' => ?_) fun i e => h.owed
    have hM' := (roster_map_edit w w.log _ _ p q).symm.trans hM'
    obtain ⟨M, hM, rfl⟩ := map_eq_some_iff.mp hM'
    -- only exit signals change, and none of the four facts is about those
    refine ⟨M, hM, ?_, fun hp => ?_, fun _ _ hz => ?_, fun _ _ _ _ hd => ?_⟩ <;>
      split_ifs at * <;> first | assumption | rfl
  | @claimWon _ p L M code won hL hc hM hfree =>
    refine h.frame (fun q M' hM' => ?_) fun i e => h.owed
    rw [roster_claim] at hM'
    obtain ⟨N, hN, rfl⟩ := map_eq_some_iff.mp hM'
    refine ⟨N, hN, rfl, id, fun _ _ => id, fun R hR hRl hR0 hd => ?_⟩
    split
    · next hq =>
      subst hq
      cases hL.symm.trans hN
      rcases hc.action with ⟨c, rfl, c', rfl⟩ | ⟨rfl, rfl⟩
      -- a winner that is to exit would take the root with it; the step is one that spares roots
      · cases hM.symm.trans hR
        exact absurd hR0 (hsp.wins hL hc hM hfree)
      · rfl
    · exact hd
  | @claimLost _ p L code won hL hc hno =>
    exact h.edit hL ⟨rfl, rfl⟩ (fun hl h0 => absurd h0 (hsp.loses hL hc hno hl))
      fun _ _ _ _ _ => rfl
  | keepChildren hL hp =>
    exact h.edit hL ⟨rfl, rfl⟩ (fun _ _ => id) fun _ _ _ _ => dying_pass hp
  | @reparent p L first more next moved hL hp h0 =>
    refine h.frame (fun q M' hM' => ?_) fun i e he => ?_
    -- no child is handed to parent 0, so no task becomes a root
    · rw [roster_map_edit] at hM'
      obtain ⟨M, hM, rfl⟩ := map_eq_some_iff.mp hM'
      refine ⟨M, hM, ?_, fun hp => ?_, fun _ _ hz => ?_, fun _ _ _ _ hd => ?_⟩
      · split_ifs <;> rfl
      · split_ifs at hp <;> first | exact absurd hp h0 | exact hp
      · split_ifs <;> exact hz
      · by_cases hq : q = p
        · subst hq
          cases hL.symm.trans hM
          rw [if_pos rfl]
          exact dying_pass hp hd
        · rw [if_neg hq]
          split <;> exact hd
    · dsimp only [World.edit] at he
      split at he
      -- the records of children that have ended are handed over as well
      · simp only [ExitLog.forEachPending, get?_mapVals] at he
        obtain ⟨r, hr, rfl⟩ := map_eq_some_iff.mp he
        split
        · exact h0
        · exact h.owed hr
      · exact h.owed he
  | killMark hL hkl hM hg hp hs =>
    exact h.edit hM ⟨rfl, rfl⟩
      (fun hl h0 => absurd h0 (h.not_victim hk hL hkl hM hg hp hs hl)) fun _ _ _ _ => id
  | killReap hL hkl hM hg hp hs =>
    exact h.reap hk hM ⟨rfl, rfl, rfl⟩ (h.not_victim hk hL hkl hM hg hp hs)
  | killDone hL hkl =>
    refine h.edit hL ⟨rfl, rfl⟩ (fun _ _ => id) fun _ _ _ _ hd => ?_
    cases hkl with
    | group code hph =>
      rw [hph] at hd
      contradiction
    | dethread => rfl
  | @exit p L c code hL =>
    refine h.edit hL ⟨rfl, rfl⟩ (fun hl h0 => absurd h0 (hsp.exits rfl hL hl))
      fun _ _ _ _ _ => ?_
    split <;> rfl
  | execLeader hL =>
    exact h.edit hL ⟨rfl, rfl⟩ (fun _ _ => id) fun _ _ _ _ _ => rfl
  | @promoted p klocks L hL hph hl =>
    -- an exec that takes over is alive: it still owns its group
    have hz : L.zombie = false := ho.alive (cores_of hL) (.inl (by
      rw [Life.core_phase, hph]; rfl))
    refine h.join (fun hN => (edit_eq_some hL hN).imp_right And.right) rfl (fun q N hN => ?_)
      (ho.nonzero (cores_of hL)) hz rfl
    exact ho.tgid_ne (cores_of hL) hl (cores_of hN)
  | @exchanged p klocks L M rec hL hph hl hM hy hrec =>
    have hz : L.zombie = false := ho.alive (cores_of hL) (.inl (by
      rw [Life.core_phase, hph]; rfl))
    have htg : L.tgid ≠ 0 := h.group hL
    have hMt : M.tgid = L.tgid := ho.lead (cores_of hL) (cores_of hM)
    refine h.frame (fun q M' hM' => ?_) fun i e he => ?_
    · dsimp only at hM'
      -- the pid of the caller is gone
      split at hM'
      · contradiction
      split at hM'
      -- the leader is now the caller, under the leader's pid
      · next hq =>
        subst hq
        cases hM'
        refine ⟨M, hM, hMt.symm, fun hp => ?_, fun _ _ _ => hz, fun _ _ _ _ _ => rfl⟩
        split at hp
        · exact absurd hp htg
        · exact hp
      · obtain ⟨N, hN, rfl⟩ := map_eq_some_iff.mp hM'
        refine ⟨N, hN, ?_, fun hp => ?_, fun _ _ hz => ?_, fun _ _ _ _ hd => ?_⟩ <;>
          split_ifs at * <;> first | exact absurd hp htg | assumption | rfl
    · rcases pool_insert he with ⟨-, hp⟩ | ⟨j, hj⟩
      · rw [hrec] at hp
        contradiction
      · exact h.owed hj
  | @cloned p L thread hL =>
    have ht : L.tgid ≠ 0 := h.group hL
    refine h.enrol hn.fresh ?_ rfl rfl
    cases thread with
    | false => exact hn.pos.ne'
    | true => exact ht
  | spawned => exact h.enrol hn.fresh hn.pos.ne' rfl rfl
  | refused | consumedSpilled => exact ⟨h.group, h.lives, h.stays, h.owed⟩
  | reported hL hM => exact h.edit hM ⟨rfl, rfl⟩ (fun _ _ => id) fun _ _ _ _ => id
  | consumed =>
    refine h.frame (fun q M hM => ⟨M, hM, rfl, id, fun _ _ => id, fun _ _ _ _ => id⟩)
      fun j e he => ?_
    simp only [ExitLog.consumeZombie] at he
    split at he
    · simp only [ExitLog.pushRecent, get?_erase] at he
      split at he
      · contradiction
      · exact h.owed he
    · exact h.owed he

end Rooted

/-! ### Runs -/

namespace Kernel

variable {k k' : Kernel}

/-- A process without a parent: init, or a kernel thread. -/
def isRoot (k : Kernel) (pid : Nat) : Bool :=
  (k.rq.findPid pid).any fun t => t.isLeader && t.ppid == 0

/-- The step does not end a process without a parent. -/
def sparesRoots (k : Kernel) : Action → Bool
  | .exitGroup pid _ =>
    (k.rq.findPid pid).all fun t =>
      if (k.rq.claimGroupExit pid).isSome then !k.isRoot t.tgid else !k.isRoot pid
  | .dethread pid => (k.rq.claimGroupExit pid).isSome || !k.isRoot pid
  | .exit pid _ => !k.isRoot pid
  | _ => true

/-- A process that comes into being finds room, and a pid of its own. -/
def admits (k : Kernel) : Action → Bool
  | .spawn => k.hasRoom && decide (k.nextPid + 1 < 2 ^ 32)
  | .clone _ _ => decide (k.nextPid + 1 < 2 ^ 32)
  | .takeOver pid _ => !k.promotes pid || k.hasRoom
  | _ => true

/-- No process without a parent ends, and no process comes into being unadmitted. -/
def orderly (k : Kernel) (a : Action) : Prop := k.sparesRoots a = true ∧ k.admits a = true

/-- Where a run begins: nobody is on the way out, and the counters are right. -/
structure Settled (k : Kernel) : Prop where
  rest : k.AtRest
  numbered : k.world.Numbered
  log : k.exitLog = .new
  group : ∀ t ∈ k.rq, t.tgid ≠ 0
  procs : k.rq.nproc = k.rq.leaders
  room : k.rq.leaders ≤ maxProcesses

theorem isRoot_of (ho : Owned k.world.cores) {p : Nat} {t l : Task}
    (ht : k.rq.findPid p = some t) (hl : k.rq.findPid t.tgid = some l) (h0 : l.ppid = 0) :
    k.isRoot t.tgid = true := by
  have hlead : l.tgid = t.tgid := ho.lead (cores_of (roster_eq_of_find ht))
    (cores_of (roster_eq_of_find hl))
  simp only [isRoot, hl, Option.any_some, isLeader, Bool.and_eq_true, beq_iff_eq]
  exact ⟨(findPid_eq_some hl).2.trans hlead.symm, h0⟩

/-- The condition on the kernel gives the one on the abstract model. -/
theorem spares_of_sparesRoots (ho : Owned k.world.cores) {a : Action}
    (hs : k.sparesRoots a = true) : k.world.Spares a := by
  -- a leader with no parent is the root of its own group
  have root_self : ∀ {p : Nat} {t : Task}, k.rq.findPid p = some t → t.tgid = p → t.ppid = 0 →
      k.isRoot p = true := by
    intro p t ht hl h0
    have := isRoot_of ho ht (hl.symm ▸ ht) h0
    rwa [hl] at this
  constructor
  · -- a claim that is won would end the root's group
    intro p L M code c hL hc hM hfree h0
    obtain ⟨t, ht, rfl⟩ := map_eq_some_iff.mp hL
    obtain ⟨l, hl, rfl⟩ := map_eq_some_iff.mp hM
    rcases hc.action with ⟨c₀, rfl, -⟩ | ⟨-, hc'⟩
    · have hwin := (claimGroupExit_isSome ht hl).mpr hfree
      simp only [sparesRoots, ht, all_some, hwin, isRoot_of ho ht hl h0] at hs
      contradiction
    · contradiction
  · -- a claim that is lost ends the caller, which may be the root itself
    intro p L code win hL hc hno hl h0
    obtain ⟨t, ht, rfl⟩ := map_eq_some_iff.mp hL
    have hlost := claim_lost ht hno
    rcases hc.action with ⟨c₀, rfl, -⟩ | ⟨rfl, -⟩
    · simp only [sparesRoots, ht, hlost,
        root_self ht hl h0] at hs
      contradiction
    · simp only [sparesRoots, hlost, root_self ht hl h0] at hs
      contradiction
  · rintro p L c rfl hL hl h0
    obtain ⟨t, ht, rfl⟩ := map_eq_some_iff.mp hL
    simp only [sparesRoots, root_self ht hl h0] at hs
    contradiction

/-- The invariant of a run. -/
structure InRoom (k : Kernel) : Prop where
  governed : k.Governed
  numbered : k.world.Numbered
  accounted : k.Accounted
  rooted : Rooted k.world

theorem Settled.inRoom (h : k.Settled) : k.InRoom := by
  have htidy : k.exitLog.Tidy := by
    rw [h.log]
    exact .new
  -- at rest every life is that of a task on the queue
  have hat : ∀ {q L}, k.world.roster q = some L → ∃ t ∈ k.rq, t.life = L := by
    intro q L hL
    obtain ⟨t, ht, rfl⟩ := map_eq_some_iff.mp hL
    exact ⟨t, (findPid_eq_some ht).1, rfl⟩
  refine ⟨h.rest.governed, h.numbered, ⟨h.procs, htidy, ?_⟩, ?_, ?_, ?_, ?_⟩
  · rw [h.log]
    exact h.room
  · intro q N hN
    obtain ⟨t, ht, rfl⟩ := hat hN
    exact h.group t ht
  · intro g M hM _ _
    obtain ⟨t, ht, rfl⟩ := hat hM
    simp [life, (h.rest.rest t ht).2]
  · intro g M q N _ _ _ hN _
    obtain ⟨t, ht, rfl⟩ := hat hN
    simp [life, (h.rest.rest t ht).1, Ctx.coarse, Ctx.dying]
  · intro i e he
    rw [show k.world.log = .new from h.log] at he
    contradiction

/-- An orderly step keeps the invariant of a run. -/
theorem InRoom.step (h : k.InRoom) {a : Action} (hok : k.orderly a) (hs : k.step a = some k') :
    k'.InRoom := by
  have hv := h.governed.valid
  have hk := k.keyed_world
  -- the counter of pids has room where `orderly` says so
  have hwrap : a.creates = true → k.world.next + 1 < 2 ^ 32 := by
    intro ha
    cases a with
    | clone => exact of_decide_eq_true hok.2
    | spawn => exact of_decide_eq_true (Bool.and_eq_true_iff.mp hok.2).2
    | _ => contradiction
  have hnew : a.creates = true → ∀ u ∈ k.rq, u.pid ≠ k.nextPid :=
    fun _ u hu => (h.numbered.task (hv.roster_of_mem hu)).1.ne
  obtain ⟨hv', hstep⟩ := refines hv hnew hs
  refine ⟨⟨hv', hstep.owned hk h.governed.owned fun _ => h.numbered.fresh⟩,
    hstep.numbered hk h.numbered hwrap, ?_, h.rooted.step hk h.numbered h.governed.owned
      (spares_of_sparesRoots h.governed.owned hok.1) hstep⟩
  -- the accounts: new pids lead no group yet, and the two unchecked creations have been checked
  refine h.accounted.step h.governed (fun _ u hu => ?_) ?_ ?_ hs
  · exact (h.numbered.task (hv.roster_of_mem hu)).2.1.ne
  · rintro rfl
    exact (Bool.and_eq_true_iff.mp hok.2).1
  · rintro pid klocks rfl hpro
    have hadm : (!k.promotes pid || k.hasRoom) = true := hok.2
    rwa [hpro, Bool.not_true, Bool.false_or] at hadm

/-- **The pool of exit records does not overflow**: processes and uncollected records together
stay within the limit, both counters are right, nothing spills into the ring and no record is
left without a parent to collect it; in every run that ends no process without a parent and in
which spawns and promotions ask for room. -/
theorem zombie_pool_never_overflows (h : Reachable Settled orderly step k) :
    k.rq.leaders + k.exitLog.pendings ≤ maxProcesses ∧
    k.rq.nproc = k.rq.leaders ∧ k.exitLog.zombieRecords = k.exitLog.pendings ∧
    k.exitLog.spilled = false ∧ (∀ i e, k.exitLog.recent.get? i = some e → e.pending = false) ∧
    ∀ i e, k.exitLog.zombies.get? i = some e → e.parentTgid ≠ 0 := by
  have hinv : k.InRoom :=
    h.invariant (fun _ h => h.inRoom) fun _ _ _ h hok hs => h.step hok hs
  have hacc := hinv.accounted
  have hp := hacc.tidy.pendings
  exact ⟨by rw [hp]; exact hacc.room, hacc.procs, hp.symm, hacc.tidy.spilled, hacc.tidy.ring,
    fun _ _ => hinv.rooted.owed⟩

theorem settled_threeThreads : threeThreads.Settled where
  rest := atRest_threeThreads
  numbered := numbered_of_slots (by decide) (by decide) (by decide +kernel) rfl
  log := rfl
  group := by
    intro t ht
    exact (show ∀ t ∈ threeThreads.rq.slots, t.tgid ≠ 0 by decide +kernel) t
      (mem_slots.mpr ht)
  procs := by decide +kernel
  room := by decide +kernel

/-- Process 5 forks, and ends: its record takes the place it had. -/
theorem zombie_pool_never_overflows_exit :
    ∃ k, Reachable Settled orderly step k ∧ k.rq.leaders = 2 ∧ k.exitLog.pendings = 1 ∧
      k.rq.leaders + k.exitLog.pendings ≤ maxProcesses := by
  have hrun : Reachable Settled orderly step _ :=
    (((((((Reachable.start settled_threeThreads).next (a := .clone 6 false)
      ⟨by decide +kernel, by decide +kernel⟩ rfl).next (a := .exitGroup 6 3)
      ⟨by decide +kernel, by decide +kernel⟩ rfl).next (a := .reparent 6)
      ⟨by decide +kernel, by decide +kernel⟩ rfl).next (a := .kill 6 fun _ => 0)
      ⟨by decide +kernel, by decide +kernel⟩ rfl).next (a := .switchOut 7 0)
      ⟨by decide +kernel, by decide +kernel⟩ rfl).next (a := .kill 6 fun _ => 0)
      ⟨by decide +kernel, by decide +kernel⟩ rfl).next (a := .switchOut 5 0)
      ⟨by decide +kernel, by decide +kernel⟩ rfl
  exact ⟨_, hrun, by decide +kernel, by decide +kernel, (zombie_pool_never_overflows hrun).1⟩

/-- With a free slot, a spawn makes one more process. -/
theorem leaders_spawn (h : k.rq.tasks.total (fun _ _ => 1) < maxTasks) :
    k.spawn.rq.leaders = k.rq.leaders + 1 ∧
      k.spawn.rq.tasks.total (fun _ _ => 1) = k.rq.tasks.total (fun _ _ => 1) + 1 := by
  have hfree : k.rq.tasks.freeKey < maxTasks := k.rq.tasks.freeKey_le.trans_lt h
  have hq : k.spawn.rq.tasks = k.rq.tasks.insert k.rq.tasks.freeKey (newKernel k.nextPid) := by
    unfold spawn
    dsimp only
    split
    · next rq' he =>
      obtain rfl := Option.some.inj ((if_pos hfree).symm.trans he)
      rfl
    · next he => exact absurd ((if_pos hfree).symm.trans he) nofun
  -- one task more, of weight one, in a slot that was free
  have htot := fun w => total_insert w k.rq.tasks k.rq.tasks.freeKey
    (newKernel k.nextPid)
  simp only [get?_freeKey, weight_none, Nat.add_zero] at htot
  have hone := htot fun _ t => if t.pid = t.tgid then 1 else 0
  rw [if_pos (show (newKernel k.nextPid).pid = (newKernel k.nextPid).tgid from rfl)]
    at hone
  rw [leaders, hq]
  exact ⟨hone, htot _⟩

theorem spawns (n : Nat) (h : n + 4 ≤ maxTasks) :
    ∃ k, Reachable Settled (fun _ _ => True) step k ∧ k.rq.leaders = n + 2 ∧
      k.rq.tasks.total (fun _ _ => 1) = n + 4 := by
  induction n with
  | zero => exact ⟨_, .start settled_threeThreads, by decide +kernel, by decide +kernel⟩
  | succ n ih =>
    obtain ⟨k, hk, hl, ht⟩ := ih (by omega)
    obtain ⟨h1, h2⟩ := k.leaders_spawn (by omega)
    exact ⟨k.spawn, hk.next (a := .spawn) trivial rfl, by omega, by omega⟩

/-- Nobody counts the kernel threads: 2047 spawns are one process too many. -/
theorem spawn_unadmitted : ∃ k, Reachable Settled (fun _ _ => True) step k ∧
      k.rq.leaders + k.exitLog.pendings > maxProcesses := by
  obtain ⟨k, hk, hl, -⟩ := spawns 2047 (by decide)
  exact ⟨k, hk, by rw [hl]; exact Nat.lt_of_lt_of_le (by decide) (Nat.le_add_right _ _)⟩

end Kernel

end Leandros.Sched
