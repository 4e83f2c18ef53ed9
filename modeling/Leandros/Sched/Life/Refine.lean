import Leandros.Sched.Life.World

/-!
# Leandros.Sched.Life.Refine

**Every step of the scheduler is a step of the abstract model of processes**
(`Kernel.refines`), as long as a new task gets a pid that is not in use.

The first half goes through the holds that leave lives alone, the second through those
that end a task, claim a group or hand children over. What a later module knows about a
step of `Kernel.step` it knows from `World.Step`.

A hold that rewrites tasks in place is steady if it leaves alone what a life is made of; most proofs
of the first half only name the fields that the hold writes. The kill loops of the second half pick
their victims by a search, of which the abstract step keeps that the victim is a member.
-/

namespace Leandros.Sched

open Leandros.Sched.Task
open OrdMap
open Option (ext map_eq_some_iff map_some)
open RunQueue

/-! ### Steady holds -/

namespace Task

theorem steady_resume (cont : Bool) (t : Task) : t.Steady (t.resume cont) := by
  refine .of_state rfl ?_ id
  simp only [resume]
  split
  · next h => simp [h]
  · rfl

theorem steady_queue (sig : Nat) (info : SigInfo) (t : Task) : t.Steady (t.queue sig info) := by
  refine .of_state rfl ?_ id
  simp only [queue]
  split
  · next h => simp [h]
  · rfl

variable {t : Task}

theorem steady_park (h : t.state ≠ .zombie) : t.Steady t.park :=
  .of_state rfl (iff_of_false (by simp [park]) h) id

theorem steady_askStop (pid : Nat) (h : t.state ≠ .zombie) :
    t.Steady (t.askStop pid) := by
  refine .of_state rfl (iff_of_false ?_ h) id
  simp only [askStop]
  split
  · simp
  · exact h

theorem Settled.of_onCpu (h : t.onCpu.isSome) : t.Settled := fun hn => by
  rw [hn] at h
  contradiction

/-- If this is `pid`, it runs, at an ordinary place. -/
def AtHome (pid : Nat) (t : Task) : Prop :=
  t.pid = pid → t.onCpu.isSome ∧ t.ctx.coarse = .elsewhere

end Task

namespace RunQueue

section

variable (rq : RunQueue)

theorem steady_onSignalGenerated (tgid sig : Nat) : rq.Steady (rq.onSignalGenerated tgid sig) := by
  unfold onSignalGenerated
  split
  · refine (steady_mapTasks fun t _ => ?_).trans (steady_modifyPid fun t _ => ⟨rfl, id⟩)
    split
    · exact steady_resume _ t
    · exact .refl t
  · split
    · refine (steady_mapTasks fun t _ => ?_).trans (steady_modifyPid fun t _ => ⟨rfl, id⟩)
      split
      · exact ⟨rfl, id⟩
      · exact .refl t
    · exact .refl rq

theorem steady_postSignalThread (pid sig : Nat) (info : SigInfo) :
    rq.Steady (rq.postSignalThread pid sig info).2 := by
  unfold postSignalThread
  split
  · split
    · exact (rq.steady_onSignalGenerated _ _).trans
        (steady_modifyPid fun t _ => steady_queue sig info t)
    · exact .refl rq
  · exact .refl rq

theorem steady_deliverSignalProcess (tgid sig : Nat) (info : SigInfo) :
    rq.Steady (rq.deliverSignalProcess tgid sig info).2 := by
  have hg := rq.steady_onSignalGenerated tgid sig
  unfold deliverSignalProcess
  split
  · simp only [postSignalProcess]
    split
    · exact hg.trans (steady_modifyAt fun t _ => steady_queue sig info t)
    · split
      · exact hg.trans (steady_modifyAt fun t _ => ⟨rfl, id⟩)
      · exact hg
  · exact .refl rq

theorem steady_doSignalStop (pid sig : Nat) : rq.Steady (rq.doSignalStop pid sig) := by
  unfold doSignalStop
  split
  · refine (steady_modifyPid fun t _ => ?_).trans (steady_mapTasks fun t _ => ?_)
    · exact ⟨rfl, id⟩
    · split
      · next h => exact steady_askStop pid h.2
      · exact .refl t
  · exact .refl rq

theorem steady_enterHandler (pid sig : Nat) (action : SigAction) :
    rq.Steady (rq.enterHandler pid sig action) := by
  simp only [enterHandler]
  split
  · refine (steady_modifyPid fun t _ => ?_).trans (steady_modifyPid fun t _ => ?_)
    all_goals exact ⟨rfl, id⟩
  · exact steady_modifyPid fun t _ => ⟨rfl, id⟩

theorem steady_sysSigaction (pid sig : Nat) (act : SigAction) :
    rq.Steady (rq.sysSigaction pid sig act) := by
  unfold sysSigaction
  split
  · split
    · split
      · exact .refl rq
      · exact steady_modifyPid fun t _ => ⟨rfl, id⟩
    · exact .refl rq
  · exact .refl rq

end

/-! A thread on a CPU that stays at an ordinary place. -/

section

variable {rq : RunQueue} {pid : Nat} (hp : rq.All (AtHome pid))

include hp

theorem All.found {t : Task} (ht : rq.findPid pid = some t) :
    t.onCpu.isSome ∧ t.ctx.coarse = .elsewhere :=
  hp t (findPid_eq_some ht).1 (findPid_eq_some ht).2

theorem steady_setCtx {c : Ctx} (hc : c.coarse = .elsewhere) : rq.Steady (rq.setCtx pid c) := by
  refine steady_modifyPid fun u hu => ?_
  obtain ⟨hcpu, hctx⟩ := hp.found hu
  refine .of_ctx ?_ hcpu
  simp [life, hctx, hc]

theorem steady_claimShared : rq.Steady (rq.claimShared pid) := by
  unfold claimShared
  split
  · split
    · split
      · exact steady_setCtx hp rfl
      · refine (steady_modifyPid fun t _ => ?_).trans (steady_modifyPid fun t _ => ?_)
        all_goals exact ⟨rfl, id⟩
    · exact .refl rq
  · exact .refl rq

theorem steady_sample : rq.Steady (rq.sample pid) := by
  unfold sample
  split
  · next t ht =>
    split
    · -- a job-control stop is due: the thread parks itself
      next h =>
      rw [Bool.and_eq_true, bne_iff_ne] at h
      refine steady_modifyPid fun u hu => ?_
      cases ht.symm.trans hu
      exact steady_park h.2
    split
    · split
      · exact steady_modifyPid fun t _ => ⟨rfl, id⟩
      · exact .refl rq
    · -- it goes on to take a signal off its queues
      refine steady_modifyPid fun u hu => ?_
      obtain ⟨hcpu, hctx⟩ := hp.found hu
      refine .of_ctx ?_ hcpu
      simp only [life, hctx]
      rfl
  · exact .refl rq

theorem steady_dequeue (sig : Nat) (action : SigAction) (oldMask : SigSet) (info : SigInfo) :
    rq.Steady (rq.dequeue pid sig action oldMask info) := by
  refine steady_modifyPid fun u hu => ?_
  obtain ⟨hcpu, hctx⟩ := hp.found hu
  refine .of_ctx ?_ hcpu
  simp only [life, hctx]
  rfl

theorem atHome_doSignalStop (sig : Nat) : (rq.doSignalStop pid sig).All (AtHome pid) := by
  unfold doSignalStop
  split
  · refine (hp.modifyPid _ fun t _ _ ht => ?_).mapTasks fun t _ ht => ?_
    · exact ht
    · split
      · exact ht
      · exact ht
  · exact hp

theorem atHome_enterHandler (sig : Nat) (action : SigAction) :
    (rq.enterHandler pid sig action).All (AtHome pid) := by
  simp only [enterHandler]
  split
  · refine (hp.modifyPid pid fun t _ _ ht => ?_).modifyPid _ fun t _ _ ht => ?_
    all_goals exact ht
  · exact hp.modifyPid pid fun t _ _ ht => ht

theorem atHome_replaceSignalMask (mask : SigSet) :
    (rq.replaceSignalMask pid mask).All (AtHome pid) :=
  hp.modifyPid pid fun _ _ _ ht => ht

/-- The hold of `stop_now_if_pending`, except where it puts the thread to sleep. -/
theorem stopNowIfPending_cases (sig : Nat) : rq.Steady (rq.stopNowIfPending pid sig) ∨
      rq.stopNowIfPending pid sig = rq.modifyPid pid park := by
  unfold stopNowIfPending
  split
  · next me hme =>
    dsimp only
    split
    · exact .inl (.refl rq)
    -- found pending somewhere in the group: taken off all queues and left with this thread
    split
    · left
      refine (steady_mapTasks fun t _ => ?_).trans ((steady_modifyPid fun t _ => ?_).trans
        (steady_modifyPid fun u hu => ?_))
      · split
        · exact ⟨rfl, id⟩
        · exact .refl t
      · exact ⟨rfl, id⟩
      obtain ⟨hcpu, hctx⟩ : u.onCpu.isSome ∧ u.ctx.coarse = .elsewhere := by
        refine All.found ((hp.mapTasks fun t _ ht => ?_).modifyPid _ fun t _ _ ht => ?_) hu
        · split
          · exact ht
          · exact ht
        · exact ht
      refine .of_ctx ?_ hcpu
      simp only [life, hctx]
      rfl
    · split
      · exact .inr rfl
      · exact .inl (.refl rq)
  · exact .inl (.refl rq)

end

theorem Distinct.findPidIdx {rq : RunQueue} (hd : rq.Distinct) {i : Nat} {t : Task}
    (h : rq.tasks.get? i = some t) : rq.findPidIdx t.pid = some i := by
  cases hi : rq.findPidIdx t.pid with
  | none => exact absurd rfl (findPidIdx_eq_none.mp hi t ⟨i, h⟩)
  | some j =>
    obtain ⟨u, hu, hp⟩ := findPidIdx_eq_some hi
    rw [hd j i u t hu h hp]

theorem Distinct.modifyAt_eq_modifyPid {rq : RunQueue} (hd : rq.Distinct) {i : Nat} {t : Task}
    (h : rq.tasks.get? i = some t) (f : Task → Task) : rq.modifyAt i f = rq.modifyPid t.pid f := by
  rw [modifyPid, hd.findPidIdx h]

end RunQueue

namespace Kernel

/-- What the reading of steps as changes to lives rests on. -/
structure Valid (k : Kernel) : Prop where
  distinct : k.rq.Distinct
  settled : k.rq.Settled

/-- What most holds come to: lives stay as they are, or a thread that sleeps runs on. -/
inductive Calm (k : Kernel) : Kernel → Prop
  | steady {f : RunQueue → RunQueue} (h : k.rq.Steady (f k.rq)) : Calm k (k.onQueue f)
  | revive {pid : Nat} {t : Task} {f : Task → Task} (ht : k.rq.findPid pid = some t)
      (hc : t.ctx.sleeps = true) (hF : ∀ u, (f u).life = { u.life with zombie := false })
      (hs : (f t).Settled) : Calm k (k.onQueue (·.modifyPid pid f))

/-- The step `a` of the kernel is one of the abstract model. -/
structure Follows (k : Kernel) (a : Action) (k' : Kernel) : Prop where
  valid : k'.Valid
  step : k.world.Step a k'.world

section

variable {k : Kernel}

theorem Valid.steady (h : k.Valid) {f : RunQueue → RunQueue} (hs : k.rq.Steady (f k.rq)) :
    (k.onQueue f).Valid ∧ (k.onQueue f).world = k.world :=
  ⟨⟨h.distinct.of_steady hs, hs.settled h.settled⟩, by
    simp [world, onQueue, hs.roster h.distinct]⟩

variable {f : Task → Task} {a : Action} {pid : Nat} {t : Task} {rq rq' : RunQueue} {code : Int}
  {won : Ctx}

variable {k' : Kernel} {i : Nat}

theorem Follows.of {w : World} (h : k'.Valid ∧ k'.world = w)
    (hs : k.world.Step a w) : k.Follows a k' :=
  ⟨h.1, h.2 ▸ hs⟩

theorem get?_onQueue_modifyAt (ht : k.rq.tasks.get? i = some t) :
    (k.onQueue (·.modifyAt i f)).rq.tasks.get? i = some (f t) := by
  simp [onQueue, modifyAt, ht]

theorem roster_eq_of_find (ht : k.rq.findPid pid = some t) : k.world.roster pid = some t.life := by
  simp [world, roster, ht]

theorem resolve_world (k : Kernel) (pid : Nat) : k.world.resolve pid = k.rq.resolve pid := by
  simp [World.resolve, world, roster, RunQueue.resolve, Function.comp_def, Task.life]

section

variable (h : k.Valid)
include h

theorem Valid.quiet (ha : a.quiet = true) {f : RunQueue → RunQueue}
    (hs : k.rq.Steady (f k.rq)) : k.Follows a (k.onQueue f) :=
  .of (h.steady hs) (.same ha)

/-- A change to one task. -/
theorem Valid.edit (ht : k.rq.findPid pid = some t)
    {F : Life → Life} (hF : (f t).life = F t.life) (hF' : (F t.life).pid = t.pid)
    (hs : (f t).Settled) : (k.onQueue (·.modifyPid pid f)).Valid ∧
      (k.onQueue (·.modifyPid pid f)).world = k.world.edit pid F := by
  obtain ⟨hmem, hp⟩ := findPid_eq_some ht
  obtain ⟨hd, hr⟩ := roster_modifyPid h.distinct ht
    ((congrArg Life.pid hF).trans (hF'.trans hp))
  refine ⟨⟨hd, h.settled.modifyPid pid fun u hu hup _ => ?_⟩, ?_⟩
  · rw [h.distinct.eq hu hmem (hup.trans hp.symm)]
    exact hs
  · simp [world, onQueue, World.edit, hr, roster, ht, hF]

theorem Valid.editAt {i : Nat} (ht : k.rq.tasks.get? i = some t)
    {F : Life → Life} (hF : (f t).life = F t.life) (hF' : (F t.life).pid = t.pid)
    (hs : (f t).Settled) : (k.onQueue (·.modifyAt i f)).Valid ∧
      (k.onQueue (·.modifyAt i f)).world = k.world.edit t.pid F := by
  have hfind := h.distinct.findPid ⟨i, ht⟩
  simp only [onQueue, h.distinct.modifyAt_eq_modifyPid ht]
  exact h.edit hfind hF hF' hs

/-- A thread goes on to another place. -/
theorem Valid.place (ht : k.rq.findPid pid = some t) {c : Ctx} (hc : c.coarse = c)
    (hs : ({ t with ctx := c } : Task).Settled) :
    (k.onQueue (·.setCtx pid c)).Valid ∧
      (k.onQueue (·.setCtx pid c)).world = k.world.edit pid fun L => { L with phase := c } :=
  h.edit ht (by simp [life, hc]) rfl hs

/-- A change to every task. -/
theorem Valid.map {g : Task → Task} {G : Life → Life}
    (hg : ∀ t ∈ k.rq, (g t).life = G t.life) (hG : ∀ L, (G L).pid = L.pid)
    (hs : ∀ t ∈ k.rq, t.Settled → (g t).Settled) :
    (k.onQueue (·.mapTasks g)).Valid ∧ (k.onQueue (·.mapTasks g)).world = k.world.map G := by
  refine ⟨⟨h.distinct.mapTasks fun t ht => ?_, h.settled.mapTasks hs⟩, ?_⟩
  · exact (congrArg Life.pid (hg t ht)).trans (hG t.life)
  simp only [world]
  congr 1
  funext q
  exact roster_mapTasks h.distinct hg hG q

theorem Valid.reap {i : Nat} (ht : k.rq.tasks.get? i = some t) :
    (k.reap i).Valid ∧ ∃ auto, (k.reap i).world = k.world.reap t.life auto := by
  rw [Kernel.reap, ht]
  refine ⟨⟨h.distinct.remove i, h.settled.remove i⟩, parentAutoreaps k.rq (k.rq.resolve t.ppid), ?_⟩
  simp only [World.reap, World.record, resolve_world]
  simp only [logExit, onQueue, world, roster_remove h.distinct ht]
  rfl

end

/-! ### Threads that end -/

theorem switchedOut_life (t : Task) (klocks : Nat) : (switchedOut t klocks).life = t.life ∨
      (t.state = .zombie ∧ t.groupKilled = true ∧
        (switchedOut t klocks).life = { t.life with zombie := false }) := by
  by_cases hstop : stopsNow t klocks = true
  · left
    -- a zombie does not stop
    have hz : t.state ≠ .zombie := by
      intro hz
      simp [stopsNow, offState, hz] at hstop
    simp [switchedOut, hstop, life, clearBlockFields, hz]
  -- killed after it took a sleeping lock: it runs on until it lets go
  by_cases hk : t.state = .zombie ∧ t.groupKilled = true ∧ klocks ≠ 0
  · right
    refine ⟨hk.1, hk.2.1, ?_⟩
    simp [switchedOut, hstop, hk, life, clearBlockFields]
  · left
    have hoff : (offState t == .zombie) = (t.state == .zombie) := by
      unfold offState
      split
      · next h => rw [h]; rfl
      · rfl
    simp [switchedOut, hstop, hk, life, clearBlockFields, hoff]

theorem stampGroup_eq (ht : rq.findPid pid = some t)
    (signo : Nat) :
    rq.stampGroup pid signo = rq.mapTasks fun u =>
      if (signo ≠ 0 ∧ signo ≤ 64) ∧ u.tgid = t.tgid then { u with termSignal := signo } else u := by
  have htgid : rq.resolve pid = t.tgid := by simp [resolve, ht]
  unfold stampGroup
  split
  · next hs =>
    rw [htgid]
    refine mapTasks_congr fun u _ => ?_
    by_cases hu : u.tgid = t.tgid <;> simp [hs, hu]
  · next hs => simp [hs]

theorem claimGroupExit_none (ht : rq.findPid pid = some t) (h : rq.claimGroupExit pid = none) :
    ∀ l, rq.findPid t.tgid = some l → l.groupExitOwner ≠ 0 ∧ l.groupExitOwner ≠ pid := by
  intro l hl
  by_contra ho
  simp [claimGroupExit, ht, hl, ho] at h

theorem claimGroupExit_some (ht : rq.findPid pid = some t) (h : rq.claimGroupExit pid = some rq') :
    ∃ l, rq.findPid t.tgid = some l ∧ (l.groupExitOwner = 0 ∨ l.groupExitOwner = pid) ∧
      rq' = (rq.modifyPid t.tgid fun l => { l with groupExitOwner := pid }).modifyPid pid
        fun me => { me with stopPending := false } := by
  cases hl : rq.findPid t.tgid with
  | none => simp [claimGroupExit, ht, hl] at h
  | some l =>
    simp only [claimGroupExit, ht, hl] at h
    split at h
    · contradiction
    · next ho =>
      refine ⟨l, rfl, ?_, (Option.some.inj h).symm⟩
      simpa [or_iff_not_imp_left] using ho

section

variable (h : k.Valid)
include h

section

variable (ht : k.rq.findPid pid = some t)
include ht

/-- A task that stops running lives as before, or comes back from a kill. -/
theorem Valid.switchOut {klocks : Nat}
    (hy : t.ctx.yields = true) :
    k.Follows (.switchOut pid klocks) (k.switchOut pid klocks) := by
  obtain ⟨hmem, hp⟩ := findPid_eq_some ht
  obtain ⟨i, hi⟩ := hmem
  have hfind : k.rq.tasks.find? (fun t => t.pid == pid) = some (i, t) := by
    cases hf : k.rq.tasks.find? (fun t => t.pid == pid) with
    | none => simpa [hp] using find?_eq_none.mp hf i t hi
    | some e =>
      obtain ⟨hget, hpe⟩ := find?_eq_some hf
      have hji := h.distinct e.1 i e.2 t hget hi ((beq_iff_eq.mp hpe).trans hp.symm)
      have hte : e.2 = t := by
        rw [hji, hi] at hget
        exact (Option.some.inj hget).symm
      rw [← hji, ← hte]
  have hset : (switchedOut t klocks).Settled := fun _ => hy
  have hL := roster_eq_of_find ht
  simp only [Kernel.switchOut, hfind]
  rcases switchedOut_life t klocks with hlife | ⟨hz, hk, hlife⟩
  · -- the life is as before, so the task is reaped if it was dead
    obtain ⟨hv, hw⟩ := h.editAt hi (f := fun t => switchedOut t klocks) (F := id) hlife rfl hset
    have hw' : (k.onQueue (·.modifyAt i fun t => switchedOut t klocks)).world = k.world := by
      rw [hw, World.edit, hp, hL]
      simp only [map_some, id]
      rw [← hL, Function.update_eq_self]
    split
    · next hzomb =>
      obtain ⟨hv', auto, hr⟩ := hv.reap (get?_onQueue_modifyAt hi)
      refine ⟨hv', ?_⟩
      rw [hr, hw', hlife]
      have hzl : t.life.zombie = true := by
        rw [← hlife]
        simp [life, hzomb]
      exact .reapSelf hL hzl (Ctx.coarse_yields hy)
    · exact .of ⟨hv, hw'⟩ (.same rfl)
  · obtain ⟨hv, hw⟩ := h.editAt hi (f := fun t => switchedOut t klocks)
      (F := fun L => { L with zombie := false }) hlife rfl hset
    have hnz : (switchedOut t klocks).state ≠ .zombie := by
      have := congrArg Life.zombie hlife
      simpa [life] using this
    rw [if_neg hnz]
    rw [hp] at hw
    exact .of ⟨hv, hw⟩ (.revive rfl hL (.inr hk))

/-- A dead thread of an ordinary place may wake up here. -/
theorem Valid.revive
    (ha : a.quiet = true) (hc : t.ctx.sleeps = true)
    (hF : (f t).life = { t.life with zombie := false }) (hs : (f t).Settled) :
    k.Follows a (k.onQueue (·.modifyPid pid f)) :=
  .of (h.edit ht hF rfl hs)
    (.revive ha (roster_eq_of_find ht) (.inl (Ctx.coarse_sleeps hc)))

theorem Valid.claimLost
    (hc : Claims pid t.ctx.coarse a code won)
    (hn : k.rq.claimGroupExit pid = none) :
    k.Follows a (k.onQueue (·.exitDyingThread pid code)) := by
  refine .of (h.edit ht (by simp [life, Ctx.coarse]) (by rfl) fun _ => rfl)
    (.claimLost (roster_eq_of_find ht) hc fun M hM => ?_)
  obtain ⟨l, hl, rfl⟩ := map_eq_some_iff.mp hM
  exact claimGroupExit_none ht hn l hl

variable (hcpu : t.onCpu.isSome)
include hcpu

/-- `exit_group_signal` stamps every member of the group. -/
theorem Valid.stamp {signo : Nat}
    (hctx : t.ctx.coarse = .elsewhere)
    (ha : a = .exitGroupSignal pid signo ∨ ∃ frameOk, a = .act pid frameOk) : k.Follows a
      (k.onQueue fun rq => (rq.stampGroup pid signo).setCtx pid (.stamped signo)) := by
  -- the same rewriting once of tasks and once of lives
  let g (u : Task) : Task :=
    if (signo ≠ 0 ∧ signo ≤ 64) ∧ u.tgid = t.tgid then { u with termSignal := signo } else u
  let G (M : Life) : Life :=
    if (signo ≠ 0 ∧ signo ≤ 64) ∧ M.tgid = t.life.tgid then { M with termSignal := signo } else M
  have hg : ∀ u, (g u).life = G u.life ∧ (g u).onCpu = u.onCpu ∧ (g u).ctx = u.ctx := by
    intro u
    by_cases hu : (signo ≠ 0 ∧ signo ≤ 64) ∧ u.tgid = t.tgid
    · rw [show g u = { u with termSignal := signo } from if_pos hu,
        show G u.life = { u.life with termSignal := signo } from if_pos hu]
      exact ⟨rfl, rfl, rfl⟩
    · rw [show g u = u from if_neg hu, show G u.life = u.life from if_neg hu]
      exact ⟨rfl, rfl, rfl⟩
  have hG : ∀ L, (G L).pid = L.pid := fun L => by
    simp only [G]
    split <;> rfl
  obtain ⟨hv, hw⟩ := h.map (fun u _ => (hg u).1) hG fun u _ hu => by
    unfold Task.Settled
    rw [(hg u).2.1, (hg u).2.2]
    exact hu
  have hfind : (k.onQueue (·.mapTasks g)).rq.findPid pid = some (g t) := by
    have hpid : ∀ u ∈ k.rq, (g u).pid = u.pid := fun u _ =>
      (congrArg Life.pid (hg u).1).trans (hG u.life)
    rw [onQueue, findPid_mapTasks h.distinct hpid, ht, map_some]
  have hplace := hv.place hfind (c := .stamped signo) rfl (.of_onCpu ((hg t).2.1 ▸ hcpu))
  rw [hw] at hplace
  simp only [onQueue, stampGroup_eq ht]
  exact .of hplace (.stamp (roster_eq_of_find ht) hctx ha)

/-- A claim that is won makes the claimant the owner. -/
theorem Valid.claimWon
    (hc : Claims pid t.ctx.coarse a code won) (hwon : won.coarse = won)
    (hs : k.rq.claimGroupExit pid = some rq') :
    k.Follows a (k.onQueue fun _ => rq'.setCtx pid won) := by
  obtain ⟨l, hl, ho, rfl⟩ := claimGroupExit_some ht hs
  let own (l : Task) : Task := { l with groupExitOwner := pid }
  let awake (me : Task) : Task := { me with stopPending := false }
  -- the leader's field, then the thread's own two
  obtain ⟨hv₁, hw₁⟩ := h.edit hl (f := own) (F := fun M => { M with owner := pid }) rfl rfl
    (h.settled l (findPid_eq_some hl).1)
  obtain ⟨hv₂, hw₂⟩ := hv₁.steady (f := (·.modifyPid pid awake))
    (steady_modifyPid fun u _ => ⟨rfl, id⟩)
  have hfind : ∃ t', ((k.rq.modifyPid t.tgid own).modifyPid pid awake).findPid pid = some t' ∧
      t'.onCpu.isSome := by
    have hd₁ : (k.rq.modifyPid t.tgid own).Distinct := hv₁.distinct
    rw [findPid_modifyPid hd₁ pid (f := awake) fun _ => rfl,
      findPid_modifyPid h.distinct t.tgid (f := own) fun _ => rfl, ht, map_some, map_some]
    refine ⟨_, rfl, ?_⟩
    split_ifs <;> exact hcpu
  obtain ⟨t', ht', hcpu'⟩ := hfind
  have hplace := hv₂.place ht' hwon (.of_onCpu hcpu')
  rw [hw₂, hw₁] at hplace
  exact .of hplace (.claimWon (roster_eq_of_find ht) hc (roster_eq_of_find hl) ho)

theorem Valid.claimExit
    (hc : Claims pid t.ctx.coarse a code won) (hwon : won.coarse = won) :
    k.Follows a (k.claimExit pid code won) := by
  unfold Kernel.claimExit
  split
  · next rq' hs => exact h.claimWon ht hcpu hc hwon hs
  · next hn => exact h.claimLost ht hc hn

theorem Valid.exit {c : Int}
    (hph : t.ctx.coarse = .elsewhere ∧ code = c ∨ t.ctx.coarse = .exiting code) :
    k.Follows (.exit pid c) (k.onQueue fun rq =>
      (rq.markExit pid code).setCtx pid (if t.isLeader then .leaving true else .left)) := by
  rw [onQueue, markExit, setCtx, h.distinct.modifyPid_modifyPid pid]
  · refine .of (h.edit ht ?_ (by rfl) (.of_onCpu hcpu)) (.exit (roster_eq_of_find ht) hph)
    by_cases hl : t.pid = t.tgid <;> simp [life, isLeader, hl, Ctx.coarse]
  · exact fun _ => rfl

end

/-! ### Orphans -/

omit h in
/-- Handing a list of children over, one by one. -/
theorem handOver_eq (hd : rq.Distinct) (init : Nat) (l : List Nat) :
    l.foldl (fun rq pid => rq.modifyPid pid fun t => { t with ppid := init }) rq =
      rq.mapTasks fun t => if t.pid ∈ l then { t with ppid := init } else t := by
  induction l generalizing rq with
  | nil => simp
  | cons pid l ih =>
    have hpid : ∀ t ∈ rq, (if t.pid = pid then { t with ppid := init } else t : Task).pid = t.pid :=
      fun t _ => by split <;> rfl
    rw [List.foldl_cons, hd.modifyPid_eq, ih (hd.mapTasks hpid), mapTasks_mapTasks]
    refine mapTasks_congr fun t _ => ?_
    by_cases hp : t.pid = pid
    · simp [hp]
    · by_cases hl : t.pid ∈ l <;> simp [hp, hl]

theorem mem_childrenOf {dead q : Nat} :
    q ∈ childrenOf k.rq dead ↔ k.world.IsChild dead q := by
  simp only [childrenOf, List.mem_map, List.mem_filter, mem_slots, Bool.and_eq_true,
    bne_iff_ne, beq_iff_eq, isLeader, World.IsChild, resolve_world]
  constructor
  · rintro ⟨t, ⟨hmem, ⟨hl, hne⟩, hres⟩, rfl⟩
    exact ⟨t.life, roster_eq_of_find (h.distinct.findPid hmem), hl.symm, hne, hres⟩
  · rintro ⟨M, hM, hl, hne, hres⟩
    obtain ⟨t, hmem, rfl, rfl⟩ := (roster_eq_some h.distinct).mp hM
    exact ⟨t, ⟨hmem, ⟨hl.symm, hne⟩, hres⟩, rfl⟩

/-- One pass, with the place the thread goes on to. -/
theorem Valid.reparent {first : Bool} (next : Bool → Ctx)
    (ht : k.rq.findPid pid = some t) (hcpu : t.onCpu.isSome) (hp : Passes t.life first next)
    (hnext : ∀ more, (next more).coarse = next more) :
    k.Follows (.reparent pid) ((k.reparentPass t.tgid first).2.onQueue
      (·.setCtx pid (next (k.reparentPass t.tgid first).1))) := by
  have hL := roster_eq_of_find ht
  -- init is gone, or it is init that exits: nobody to hand the children to
  by_cases hi : k.initPid = 0 ∨ k.initPid = t.tgid
  · have hpass : k.reparentPass t.tgid first = (false, k) := by rw [reparentPass, if_pos hi]
    rw [hpass]
    exact .of (h.place ht (hnext _) (.of_onCpu hcpu)) (.keepChildren hL hp hi)
  rw [not_or] at hi
  -- one batch of children, by pid
  let moved (q : Nat) : Bool := decide (q ∈ (childrenOf k.rq t.tgid).take reparentBatch)
  let g (u : Task) : Task := if moved u.pid then { u with ppid := k.initPid } else u
  let log := if first then
      k.exitLog.forEachPending fun rec =>
        if rec.parentTgid = t.tgid then { rec with parentTgid := k.initPid } else rec
    else k.exitLog
  have hpass : k.reparentPass t.tgid first =
      (decide (reparentBatch < (childrenOf k.rq t.tgid).length),
        { k.onQueue (·.mapTasks g) with exitLog := log }) := by
    simp only [reparentPass, if_neg (not_or.mpr hi), handOver_eq h.distinct, g, moved,
      decide_eq_true_eq]
    rfl
  have hg : ∀ u, (g u).onCpu = u.onCpu ∧ (g u).ctx = u.ctx := fun u => by
    simp only [g]
    split <;> exact ⟨rfl, rfl⟩
  -- the batch, read as an edit of lives
  obtain ⟨hv, hw⟩ := h.map (g := g)
    (G := fun M => if moved M.pid = true then { M with ppid := k.initPid } else M)
    (fun u _ => by
      simp only [g]
      split
      · next hm => exact (if_pos (show moved u.life.pid = true from hm)).symm
      · next hm => exact (if_neg (show ¬moved u.life.pid = true from hm)).symm)
    (fun L => by split <;> rfl)
    (fun u _ hu => by unfold Task.Settled; rw [(hg u).1, (hg u).2]; exact hu)
  have hv' : ({ k.onQueue (·.mapTasks g) with exitLog := log } : Kernel).Valid :=
    ⟨hv.distinct, hv.settled⟩
  have ht' : (k.rq.mapTasks g).findPid pid = some (g t) := by
    rw [findPid_mapTasks h.distinct (fun u _ => by simp only [g]; split <;> rfl), ht, map_some]
  rw [hpass]
  generalize hmore : decide (reparentBatch < (childrenOf k.rq t.tgid).length) = more
  refine .of (hv'.place ht' (hnext more) (.of_onCpu ((hg t).1 ▸ hcpu))) ?_
  -- the batch has only children in it, and all of them if it is the last
  have hmoved : ∀ q, moved q = true → k.world.IsChild t.life.tgid q := fun q hq =>
    (mem_childrenOf h).mp (List.mem_of_mem_take (of_decide_eq_true hq))
  have hall : more = false → ∀ q, k.world.IsChild t.life.tgid q → moved q = true := by
    intro hm q hq
    rw [hm, decide_eq_false_iff_not, not_lt] at hmore
    refine decide_eq_true ?_
    rw [List.take_of_length_le hmore]
    exact (mem_childrenOf h).mpr hq
  refine (congrArg (fun w : World => k.world.Step _ (w.edit _ _)) ?_).mpr
    (World.Step.reparent hL hp hi.1 hi.2 hmoved hall)
  have hr := congrArg World.roster hw
  simp only [world] at hr ⊢
  rw [← hr]
  rfl

/-! ### Kill loops -/

theorem Valid.killMember (klocks : Nat → Nat) {p i skip : Nat} {L : Life}
    {next : Ctx} (hL : k.world.roster p = some L) (hk : Kills L code skip next)
    (hi : k.rq.tasks.get? i = some t) (hg : t.tgid = L.tgid) (hp : t.pid ≠ p) (hs : t.pid ≠ skip)
    (hlast : t.pid = L.tgid → ∀ r N, k.world.roster r = some N → N.tgid = L.tgid →
      r = p ∨ r = skip ∨ r = t.pid) :
    k.Follows (.kill p klocks) (k.killMember i t code).2 ∧ (k.killMember i t code).1 ≠ .done := by
  let mark (L : Life) : Life := { L with zombie := true, killed := true, exitCode := code }
  have hM := roster_eq_of_find (h.distinct.findPid ⟨i, hi⟩)
  obtain ⟨hv, hw⟩ := h.editAt hi
    (f := fun t => { t with state := .zombie, groupKilled := true, exitCode := code })
    (F := mark) rfl rfl (h.settled t ⟨i, hi⟩)
  simp only [Kernel.killMember]
  split
  · -- running somewhere: its CPU reaps it when it switches it out
    exact ⟨.of ⟨hv, hw⟩ (.killMark hL hk hM hg hp hs), nofun⟩
  · -- not running: reaped here, from a place where a thread may be off its CPU
    next hcpu =>
    have hy : t.ctx.yields = true := h.settled t ⟨i, hi⟩ (by simpa using hcpu)
    obtain ⟨hv', auto, hr⟩ := hv.reap (get?_onQueue_modifyAt hi)
    refine ⟨.of ⟨hv', hr⟩ ?_, nofun⟩
    rw [hw, show (life { t with state := .zombie, groupKilled := true, exitCode := code }) =
      mark t.life from rfl, show t.pid = (mark t.life).pid from rfl, World.reap_edit]
    · exact .killReap hL hk hM hg hp hs (Ctx.coarse_yields hy) hlast
    · exact fun _ => rfl

/-- One step of a kill loop: a member ends, or the loop waits, or it is done. -/
theorem Valid.kill {skip : Nat} {klocks : Nat → Nat}
    {next : Ctx} (ht : k.rq.findPid pid = some t) (hcpu : t.onCpu.isSome)
    (hk : Kills t.life code skip next) (hnext : next.coarse = next) : k.Follows (.kill pid klocks)
      (afterKill pid next (k.killNextGroupMember pid code skip klocks)) := by
  have hL := roster_eq_of_find ht
  -- a step of the loop that is not its last
  have hgo : ∀ r, k.Follows (.kill pid klocks) r.2 ∧ r.1 ≠ .done →
      k.Follows (.kill pid klocks) (afterKill pid next r) := by
    rintro ⟨s, k'⟩ ⟨hf, hs⟩
    cases s with
    | done => exact absurd rfl hs
    | reaped | kicking | deferred => exact hf
  have hmem : ∀ r N, k.world.roster r = some N → ∃ u, (∃ i, k.rq.tasks.get? i = some u) ∧
      u.pid = r ∧ u.life = N := fun r N hN => (roster_eq_some h.distinct).mp hN
  simp only [killNextGroupMember, ht]
  split
  · next i u hf =>
    obtain ⟨hget, hu⟩ := find?_eq_some hf
    simp only [Bool.and_eq_true, beq_iff_eq, bne_iff_ne] at hu
    exact hgo _ (h.killMember klocks hL hk hget hu.1.1.1.1 hu.1.1.1.2 hu.1.1.2 fun hl =>
      absurd hl hu.2)
  · next hnone₁ =>
    split
    · exact hgo _ ⟨⟨h, .same rfl⟩, nofun⟩
    · next hnone₂ =>
      -- whoever is left in the group is its leader
      have honly : ∀ i u, k.rq.tasks.get? i = some u → u.tgid = t.tgid → u.pid ≠ pid →
          u.pid ≠ skip → klocks u.pid = 0 ∧ u.pid = t.tgid := by
        intro i u hu hg hp hs
        have h1 := find?_eq_none.mp hnone₁ i u hu
        have h2 := find?_eq_none.mp hnone₂ i u hu
        have hz : klocks u.pid = 0 := by
          by_contra hz
          simp [hg, hp, hs, hz] at h2
        refine ⟨hz, ?_⟩
        by_contra hl
        simp [hg, hp, hs, hz, hl] at h1
      split
      · next i u hf =>
        obtain ⟨hget, hu⟩ := find?_eq_some hf
        simp only [Bool.and_eq_true, beq_iff_eq, bne_iff_ne] at hu
        refine hgo _ (h.killMember klocks hL hk hget hu.1.1.1.1 hu.1.1.1.2 hu.1.1.2
          fun _ r N hN hNg => ?_)
        obtain ⟨u', ⟨j, hj⟩, rfl, rfl⟩ := hmem r N hN
        by_cases hp : u'.pid = pid
        · exact .inl hp
        · by_cases hs : u'.pid = skip
          · exact .inr (.inl hs)
          · exact .inr (.inr ((honly j u' hj hNg hp hs).2.trans hu.2.symm))
      · next hnone₃ =>
        have hdone : ∀ q M, k.world.roster q = some M → M.tgid = t.tgid → q = pid ∨ q = skip := by
          intro q M hM hg
          obtain ⟨u, ⟨i, hi⟩, rfl, rfl⟩ := hmem q M hM
          by_contra hno
          rw [not_or] at hno
          obtain ⟨hz, hl⟩ := honly i u hi hg hno.1 hno.2
          have h3 := find?_eq_none.mp hnone₃ i u hi
          have hg' : u.tgid = t.tgid := hg
          have hno' : ¬t.tgid = pid := hl ▸ hno.1
          have hno'' : ¬t.tgid = skip := hl ▸ hno.2
          rw [hl] at hz
          simp [hg', hz, hl, hno', hno''] at h3
        exact .of (h.place ht hnext (.of_onCpu hcpu)) (.killDone hL hk hdone)

end

/-! ### Exec -/

/-- The parent of whoever was a child of `pid`, which is now `tgid`. -/
def handTo (pid tgid : Nat) (t : Task) : Task :=
  if t.ppid = pid ∧ t.pid ≠ pid then { t with ppid := tgid } else t

theorem handTo_same (pid tgid : Nat) (t : Task) : (handTo pid tgid t).pid = t.pid ∧
    (handTo pid tgid t).tgid = t.tgid ∧ (handTo pid tgid t).onCpu = t.onCpu ∧
    (handTo pid tgid t).ctx = t.ctx := by
  unfold handTo
  split <;> exact ⟨rfl, rfl, rfl, rfl⟩

theorem handTo_life {tgid : Nat} (hp : t.pid ≠ pid) : (handTo pid tgid t).life =
    if t.life.ppid = pid then { t.life with ppid := tgid } else t.life := by
  simp only [handTo, hp, ne_eq, not_false_eq_true, and_true]
  by_cases hpp : t.ppid = pid
  · rw [if_pos hpp, if_pos (show t.life.ppid = pid from hpp)]
    rfl
  · rw [if_neg hpp, if_neg (show t.life.ppid ≠ pid from hpp)]

/-- The queue after the exchange of the thread in slot `i` with the leader `l` in slot `j`. -/
def exchanged (rq : RunQueue) (i j pid tgid : Nat) (l : Task) : RunQueue :=
  (((rq.modifyAt i fun me => inheritLeader l me tgid).modifyAt j fun l =>
    { l with state := .zombie, exitCode := 0, pid := pid }).mapTasks (handTo pid tgid)).remove j

section

variable {i j tgid : Nat} {me l : Task}

/-- The exchange of pids leaves every other task in its slot. -/
theorem exchange_slots (hij : i ≠ j) (hi : rq.tasks.get? i = some me)
    (hj : rq.tasks.get? j = some l) (s : Nat) : (exchanged rq i j pid tgid l).tasks.get? s =
      if s = j then none else if s = i then some (handTo pid tgid (inheritLeader l me tgid))
      else (rq.tasks.get? s).map (handTo pid tgid) := by
  rw [exchanged, remove]
  split
  swap
  · next hnone => simp [mapTasks, modifyAt, hj, hij.symm] at hnone
  simp only [get?_erase]
  by_cases hsj : s = j
  · rw [if_pos hsj, if_pos hsj]
  simp only [mapTasks, modifyAt, get?_mapVals, get?_modify, if_neg hsj]
  by_cases hsi : s = i
  · subst hsi
    rw [if_pos rfl, if_pos rfl, hi]
    rfl
  · rw [if_neg hsi, if_neg hsi]

/-- The queue after the exchange, by pid. -/
theorem exchange_roster (hd : rq.Distinct) (hs : rq.Settled) (hne : tgid ≠ pid)
    (hi : rq.tasks.get? i = some me) (hj : rq.tasks.get? j = some l) (hme : me.pid = pid)
    (hl : l.pid = tgid) (hcpu : me.onCpu.isSome) :
    (exchanged rq i j pid tgid l).Distinct ∧ (exchanged rq i j pid tgid l).Settled ∧
      ∃ u, (exchanged rq i j pid tgid l).findPid tgid = some u ∧ u.life =
          { me.life with
            pid := tgid
            ppid := if l.ppid = pid then tgid else l.ppid
            pgid := l.pgid
            waitReported := l.waitReported
            owner := 0 } ∧
        ∀ q, (exchanged rq i j pid tgid l).roster q = if q = pid then none
          else if q = tgid then some u.life
          else (rq.roster q).map fun N => if N.ppid = pid then { N with ppid := tgid } else N := by
  have hij : i ≠ j := by
    rintro rfl
    cases hi.symm.trans hj
    exact hne (hl.symm.trans hme)
  have h : ∀ s, (exchanged rq i j pid tgid l).tasks.get? s = _ := exchange_slots hij hi hj
  generalize exchanged rq i j pid tgid l = rq' at h ⊢
  have hsame := handTo_same pid tgid
  let lead := handTo pid tgid (inheritLeader l me tgid)
  have hlead : lead.pid = tgid := (hsame _).1
  -- a task of the new queue is the new leader, or one that was there under another pid
  have hcases : ∀ s u, rq'.tasks.get? s = some u → s = i ∧ u = lead ∨
      ∃ t, rq.tasks.get? s = some t ∧ t.pid ≠ pid ∧ t.pid ≠ tgid ∧ u = handTo pid tgid t := by
    intro s u hu
    rw [h s] at hu
    by_cases hsj : s = j
    · rw [if_pos hsj] at hu
      contradiction
    rw [if_neg hsj] at hu
    by_cases hsi : s = i
    · rw [if_pos hsi] at hu
      exact .inl ⟨hsi, (Option.some.inj hu).symm⟩
    rw [if_neg hsi] at hu
    obtain ⟨t, ht, rfl⟩ := map_eq_some_iff.mp hu
    refine .inr ⟨t, ht, fun hp => hsi ?_, fun hp => hsj ?_, rfl⟩
    · exact hd s i t me ht hi (hp.trans hme.symm)
    · exact hd s j t l ht hj (hp.trans hl.symm)
  have hd' : rq'.Distinct := by
    intro s₁ s₂ u₁ u₂ h₁ h₂ hp
    rcases hcases s₁ u₁ h₁ with ⟨rfl, rfl⟩ | ⟨t₁, ht₁, -, hn₁, rfl⟩ <;>
      rcases hcases s₂ u₂ h₂ with ⟨rfl, rfl⟩ | ⟨t₂, ht₂, -, hn₂, rfl⟩
    · rfl
    · rw [hlead, (hsame t₂).1] at hp
      exact absurd hp.symm hn₂
    · rw [hlead, (hsame t₁).1] at hp
      exact absurd hp hn₁
    · rw [(hsame t₁).1, (hsame t₂).1] at hp
      exact hd s₁ s₂ t₁ t₂ ht₁ ht₂ hp
  have hleadAt : lead ∈ rq' := ⟨i, by rw [h i, if_neg hij, if_pos rfl]⟩
  refine ⟨hd', ?_, lead, hlead ▸ hd'.findPid hleadAt, ?_, ?_⟩
  · rintro u ⟨s, hu⟩
    rcases hcases s u hu with ⟨rfl, rfl⟩ | ⟨t, ht, -, -, rfl⟩
    · exact .of_onCpu (by rw [(hsame _).2.2.1]; exact hcpu)
    intro hn
    rw [(hsame t).2.2.1] at hn
    rw [(hsame t).2.2.2]
    exact hs t ⟨s, ht⟩ hn
  · refine (handTo_life hne).trans ?_
    change (if l.ppid = pid then _ else _) = _
    split_ifs <;> rfl
  · intro q
    refine ext fun N => ?_
    rw [roster_eq_some hd']
    by_cases hq : q = pid
    · rw [if_pos hq]
      refine iff_of_false ?_ (by simp)
      rintro ⟨u, ⟨s, hu⟩, hp, -⟩
      rcases hcases s u hu with ⟨rfl, rfl⟩ | ⟨t, -, hn, -, rfl⟩
      · exact hne (hlead.symm.trans (hp.trans hq))
      · exact hn ((hsame t).1.symm.trans (hp.trans hq))
    rw [if_neg hq]
    by_cases hqt : q = tgid
    · rw [if_pos hqt, Option.some.injEq]
      constructor
      · rintro ⟨u, hu, hp, rfl⟩
        rw [hd'.eq hu hleadAt (hp.trans (hqt.trans hlead.symm))]
      · rintro rfl
        exact ⟨lead, hleadAt, hlead.trans hqt.symm, rfl⟩
    rw [if_neg hqt, map_eq_some_iff]
    constructor
    · rintro ⟨u, ⟨s, hu⟩, rfl, rfl⟩
      rcases hcases s u hu with ⟨rfl, rfl⟩ | ⟨t, ht, hp, -, rfl⟩
      · exact absurd hlead hqt
      · refine ⟨t.life, (roster_eq_some hd).mpr ⟨t, ⟨s, ht⟩, (hsame t).1.symm, rfl⟩, ?_⟩
        exact (handTo_life hp).symm
    rintro ⟨M, hM, rfl⟩
    obtain ⟨t, ⟨s, ht⟩, rfl, rfl⟩ := (roster_eq_some hd).mp hM
    have hsi : s ≠ i := by
      rintro rfl
      cases ht.symm.trans hi
      exact hq hme
    have hsj : s ≠ j := by
      rintro rfl
      cases ht.symm.trans hj
      exact hqt hl
    refine ⟨_, ⟨s, ?_⟩, (hsame t).1, handTo_life hq⟩
    rw [h s, if_neg hsj, if_neg hsi, ht]
    rfl

end

variable (h : k.Valid)
include h

variable {klocks : Nat → Nat}

/-- The leader was reaped before. -/
theorem Valid.promote
    (hi : k.rq.tasks.get? i = some t) (hp : t.pid = pid) (hctx : t.ctx = .takingOver)
    (hne : t.tgid ≠ pid) (hnone : k.rq.findPid t.tgid = none) :
    k.Follows (.takeOver pid klocks) (k.onQueue fun rq => ((rq.modifyAt i fun me =>
      { me with tgid := pid, groupExitOwner := 0 }).noteLeaderPromoted).setCtx pid .elsewhere) := by
  let lead (me : Task) : Task := { me with tgid := pid, groupExitOwner := 0 }
  have ht : k.rq.findPid pid = some t := hp ▸ h.distinct.findPid ⟨i, hi⟩
  -- an edit of one life: its own group from now on, and no owner on record
  obtain ⟨hv, hw⟩ := h.editAt hi (f := lead) (F := fun L => { L with tgid := pid, owner := 0 }) rfl
    rfl (h.settled t ⟨i, hi⟩)
  have ht' : (k.rq.modifyAt i lead).findPid pid = some (lead t) := by
    rw [h.distinct.modifyAt_eq_modifyPid hi, hp,
      findPid_modifyPid h.distinct pid (f := lead) fun _ => rfl, ht, map_some, if_pos hp]
  have hv' : (k.onQueue fun rq => (rq.modifyAt i lead).noteLeaderPromoted).Valid :=
    ⟨hv.distinct, hv.settled⟩
  have hno : k.world.roster t.life.tgid = none := by
    simp only [world, roster, Option.map_eq_none_iff]
    exact hnone
  refine .of (hv'.place ht' rfl fun _ => rfl) ?_
  change World.Step _ _ ((k.onQueue (·.modifyAt i lead)).world.edit pid _)
  rw [hw, hp, World.edit_edit]
  exact .promoted (roster_eq_of_find ht) (congrArg Ctx.coarse hctx) hne hno

/-- The leader is there and off its CPU. -/
theorem Valid.exchange {j : Nat} {l : Task}
    (rec : ExitRecord) (hi : k.rq.tasks.get? i = some t) (hp : t.pid = pid)
    (hcpu : t.onCpu.isSome) (hctx : t.ctx = .takingOver) (hne : t.tgid ≠ pid)
    (hj : k.rq.tasks.get? j = some l) (hl : l.pid = t.tgid) (hoff : l.onCpu = none)
    (hrec : rec.isProcess = false) :
    let k' := { k with rq := exchanged k.rq i j pid t.tgid l, exitLog := k.exitLog.insert rec }
    k.Follows (.takeOver pid klocks) (k'.onQueue (·.setCtx t.tgid .elsewhere)) := by
  have ht : k.rq.findPid pid = some t := hp ▸ h.distinct.findPid ⟨i, hi⟩
  have hlf : k.rq.findPid t.tgid = some l := hl ▸ h.distinct.findPid ⟨j, hj⟩
  -- the two slots trade identities; `exchange_roster` says how that looks by pid
  obtain ⟨hd', hs', u, hu, hlife, hroster⟩ := exchange_roster h.distinct h.settled hne hi hj hp
    hl hcpu
  intro k'
  have hv' : k'.Valid := ⟨hd', hs'⟩
  have hu' : k'.rq.findPid t.tgid = some u := hu
  refine .of (hv'.place hu' rfl fun _ => rfl) ?_
  refine (congrArg (k.world.Step _) ?_).mpr
    (World.Step.exchanged (roster_eq_of_find ht) (congrArg Ctx.coarse hctx) hne
      (roster_eq_of_find hlf) (Ctx.coarse_yields (h.settled l ⟨j, hj⟩ hoff)) hrec)
  -- field by field, and the roster pid by pid
  refine World.ext (funext fun q => ?_) ?_ ?_ ?_
  · rw [World.edit_roster]
    dsimp only
    by_cases hq : q = t.tgid
    · have hqp : q ≠ pid := fun he => hne (hq.symm.trans he)
      rw [if_pos hq, roster_eq_of_find hu', hlife, if_neg hqp,
        if_pos (show q = t.life.tgid from hq)]
      rfl
    · have hr : k'.world.roster q = _ := hroster q
      rw [if_neg hq, hr, if_neg hq, if_neg (show ¬q = t.life.tgid from hq)]
      rfl
  all_goals rfl

/-- Exec by another thread than the leader takes the leader's place. -/
theorem Valid.takeOver
    (ht : k.rq.findPid pid = some t) (hcpu : t.onCpu.isSome) (hctx : t.ctx = .takingOver)
    (hlead : t.isLeader = false) : k.Follows (.takeOver pid klocks)
      (afterTakeOver pid t.tgid (k.takeOverLeader pid t.tgid klocks)) := by
  obtain ⟨⟨i, hi⟩, hp⟩ := findPid_eq_some ht
  have hne : t.tgid ≠ pid := by
    rintro rfl
    simp [isLeader, hp] at hlead
  have hidx : k.rq.findPidIdx pid = some i := hp ▸ h.distinct.findPidIdx hi
  simp only [takeOverLeader, hidx]
  split
  · -- the leader has left the queue already
    next hnone =>
    refine h.promote hi hp hctx hne (findPid_eq_none.mpr fun u ⟨s, hu⟩ => ?_)
    simpa using find?_eq_none.mp hnone s u hu
  · next j l hf =>
    obtain ⟨hj, hl⟩ := find?_eq_some hf
    have hl : l.pid = t.tgid := beq_iff_eq.mp hl
    -- a leader that holds a sleeping lock or is still on a CPU: come back later
    split
    · exact ⟨h, .same rfl⟩
    split
    · exact h.quiet rfl (f := (·.modifyAt j fun l => { l with stopPending := true }))
        (steady_modifyAt fun u _ => ⟨rfl, id⟩)
    · next hoff =>
      exact h.exchange ⟨pid, ⟨0, 0⟩, _, l.pgid, false, false⟩ hi hp hcpu hctx hne hj hl
        (by simpa using hoff) rfl

/-! ### New tasks -/

theorem Valid.enqueue
    (hnew : ∀ u ∈ k.rq, u.pid ≠ t.pid) (ht : t.Settled) (he : k.rq.enqueue t = some rq') :
    (k.onQueue fun _ => rq').Valid ∧ rq'.roster = Function.update k.rq.roster t.pid (some t.life) :=
  ⟨⟨h.distinct.enqueue he hnew, h.settled.enqueue ht he⟩, roster_enqueue h.distinct he hnew⟩

theorem Valid.clone (thread : Bool)
    (ht : k.rq.findPid pid = some t) (hctx : t.ctx = .elsewhere)
    (hnew : ∀ u ∈ k.rq, u.pid ≠ k.nextPid) :
    k.Follows (.clone pid thread) (k.cloneTask t thread) := by
  have hno : k.Follows (.clone pid thread) k.allocPid.2 :=
    ⟨⟨h.distinct, h.settled⟩, .refused rfl⟩
  simp only [cloneTask]
  split
  · split
    · next rq' he =>
      obtain ⟨hv, hr⟩ := h.enqueue hnew (fun _ => rfl) he
      refine .of ⟨⟨hv.distinct, hv.settled⟩, ?_⟩
        (.cloned (roster_eq_of_find ht) (congrArg Ctx.coarse hctx))
      exact World.ext hr rfl rfl rfl
    · exact hno
  · exact hno

theorem Valid.spawn (hnew : ∀ u ∈ k.rq, u.pid ≠ k.nextPid) :
    k.Follows .spawn k.spawn := by
  simp only [Kernel.spawn]
  split
  · next rq' he =>
    obtain ⟨hv, hr⟩ := h.enqueue hnew (fun _ => rfl) he
    refine .of ⟨⟨hv.distinct, hv.settled⟩, ?_⟩ .spawned
    exact World.ext hr rfl rfl rfl
  · exact ⟨⟨h.distinct, h.settled⟩, .refused rfl⟩

/-! ### Waits -/

theorem Valid.wait (sel : WaitSel) (consume : Bool)
    (what : WaitWhat) (ht : k.rq.findPid pid = some t) :
    k.Follows (.wait pid sel consume what) (k.waitScan sel t.tgid consume what).2 := by
  have hsame : k.Follows (.wait pid sel consume what) k := ⟨h, .same rfl⟩
  have ho := waitScan_outcome k sel t.tgid consume what
  generalize k.waitScan sel t.tgid consume what = r at ho ⊢
  -- a wait that only looks changes nothing
  cases consume with
  | false => cases ho <;> exact hsame
  | true =>
    cases ho with
    | @zombie i u hu hchild hz hr =>
      simp only [isChild, Bool.and_eq_true, beq_iff_eq, isLeader] at hchild
      exact .of (h.editAt hu rfl rfl (h.settled u ⟨i, hu⟩))
        (.reported (roster_eq_of_find ht) (roster_eq_of_find (h.distinct.findPid ⟨i, hu⟩))
          hchild.1.1.symm (by simp [life, hz]) hr
          ((resolve_world k u.ppid).trans hchild.1.2))
    | @record i => exact ⟨⟨h.distinct, h.settled⟩, .consumed i⟩
    | @spilled i => exact ⟨⟨h.distinct, h.settled⟩, .consumedSpilled i⟩
    | @stopped i =>
      exact h.quiet rfl (f := (·.modifyAt i reportStop))
        (steady_modifyAt fun _ _ => ⟨rfl, id⟩)
    | @continued i =>
      exact h.quiet rfl (f := (·.modifyAt i reportContinue))
        (steady_modifyAt fun _ _ => ⟨rfl, id⟩)
    | stillRunning | noChildren => exact hsame

/-! ### Every step -/

theorem Valid.atHome (ht : k.rq.findPid pid = some t)
    (hcpu : t.onCpu.isSome) (hctx : t.ctx.coarse = .elsewhere) : k.rq.All (AtHome pid) := by
  intro u hu hp
  obtain ⟨hmem, htp⟩ := findPid_eq_some ht
  rw [h.distinct.eq hu hmem (hp.trans htp.symm)]
  exact ⟨hcpu, hctx⟩

theorem Valid.actOn {sig : Nat} {action : SigAction} (frameOk : Bool)
    (ht : k.rq.findPid pid = some t) (hcpu : t.onCpu.isSome) (hctx : t.ctx.coarse = .elsewhere) :
    k.Follows (.act pid frameOk) (k.actOn pid sig action frameOk) := by
  have hp := h.atHome ht hcpu hctx
  unfold Kernel.actOn
  split
  · split
    · exact h.quiet rfl (steady_setCtx hp rfl)
    split
    · exact h.quiet rfl ((k.rq.steady_doSignalStop pid sig).trans
        (steady_setCtx (atHome_doSignalStop hp sig) rfl))
    · exact h.stamp ht hcpu hctx (.inr ⟨frameOk, rfl⟩)
  · split
    · exact h.quiet rfl (steady_setCtx hp rfl)
    · refine h.quiet rfl ((k.rq.steady_enterHandler pid sig action).trans
        (steady_setCtx (atHome_enterHandler hp sig action) ?_))
      split <;> rfl

/-- The holds that change no life, one after the other. -/
theorem Valid.calm (ha : a.calm = true) (hs : k.step a = some k') :
    k.Calm k' := by
  -- the thread that acts is on a CPU, in user code or at the start of a system call
  have hself {pid : Nat} {t : Task} (ht : k.rq.findPid pid = some t) (hcpu : t.onCpu.isSome)
      (hctx : t.ctx = .elsewhere) := h.atHome ht hcpu (by rw [hctx]; rfl)
  cases a with
  | dispatch =>
    simp only [step] at hs
    split at hs
    · next t ht =>
      obtain ⟨⟨hr, -⟩, rfl⟩ := guard_eq_some hs
      refine .steady (steady_modifyPid fun u hu => ?_)
      cases ht.symm.trans hu
      exact .of_state rfl (by simp [hr]) fun _ hn => by contradiction
    · contradiction
  | block | cancel =>
    obtain ⟨t, ht, hcpu, hc, rfl⟩ := thread_guard_eq_some hs
    exact .revive ht hc (fun _ => rfl) (h.settled t (findPid_eq_some ht).1)
  | wake =>
    simp only [step] at hs
    split at hs
    · next t ht =>
      obtain ⟨hb, rfl⟩ := guard_eq_some hs
      refine .steady (steady_modifyPid fun u hu => ?_)
      cases ht.symm.trans hu
      exact .of_state rfl (by simp [hb]) id
    · contradiction
  | postProcess tgid sig info =>
    cases hs
    exact .steady (k.rq.steady_deliverSignalProcess tgid sig info)
  | postThread pid sig info =>
    cases hs
    exact .steady (k.rq.steady_postSignalThread pid sig info)
  | claimShared =>
    obtain ⟨t, ht, hcpu, hc, rfl⟩ := thread_guard_eq_some hs
    exact .steady (steady_claimShared (hself ht hcpu hc))
  | sample =>
    obtain ⟨t, ht, hcpu, hc, rfl⟩ := thread_guard_eq_some hs
    exact .steady (steady_sample (hself ht hcpu hc))
  | dequeue =>
    obtain ⟨t, ht, hcpu, hs⟩ := thread_eq_some hs
    split at hs
    · next hc =>
      cases hs
      exact .steady
        (steady_dequeue (h.atHome ht hcpu (by rw [hc]; rfl)) _ _ _ _)
    · contradiction
  | stopNow pid sig =>
    obtain ⟨t, ht, hcpu, hs⟩ := thread_eq_some hs
    obtain ⟨⟨hc, -⟩, rfl⟩ := guard_eq_some hs
    -- it either goes on as it is, or parks: then a signal may have revived it
    rcases stopNowIfPending_cases (hself ht hcpu hc) sig with hst | hpark
    · exact .steady hst
    · simp only [onQueue, hpark]
      exact .revive ht (by rw [hc]; rfl) (fun _ => rfl)
        (h.settled t (findPid_eq_some ht).1)
  | sigprocmask | sigreturn | resetHandlers =>
    obtain ⟨t, ht, hcpu, hc, rfl⟩ := thread_guard_eq_some hs
    exact .steady (steady_modifyPid fun u _ => ⟨rfl, id⟩)
  | sigaction pid sig action =>
    obtain ⟨t, ht, hcpu, hc, rfl⟩ := thread_guard_eq_some hs
    exact .steady (k.rq.steady_sysSigaction pid sig action)
  | sigsuspend | maskedWait =>
    obtain ⟨t, ht, hcpu, hc, rfl⟩ := thread_guard_eq_some hs
    have hp := hself ht hcpu hc
    refine .steady (Steady.trans (steady_modifyPid fun u _ => ?_)
      (steady_setCtx (atHome_replaceSignalMask hp _) rfl))
    exact ⟨rfl, id⟩
  | endWait pid interrupted =>
    obtain ⟨t, ht, hcpu, hs⟩ := thread_eq_some hs
    split at hs
    · next hc =>
      cases hs
      have hp := h.atHome ht hcpu (by rw [hc]; rfl)
      cases interrupted with
      | true =>
        refine .steady (Steady.trans (steady_modifyPid fun u _ => ?_)
          (steady_setCtx (hp.modifyPid pid fun u _ _ hu => ?_) rfl))
        · exact ⟨rfl, id⟩
        · exact hu
      | false =>
        refine .steady (Steady.trans (steady_modifyPid fun u _ => ?_)
          (steady_setCtx (atHome_replaceSignalMask hp _) rfl))
        exact ⟨rfl, id⟩
    · contradiction
  | _ => contradiction

/-- **Every step of the scheduler is a step of the abstract model.** -/
theorem refines
    (hnew : a.creates = true → ∀ u ∈ k.rq, u.pid ≠ k.nextPid) (hs : k.step a = some k') :
    k.Follows a k' := by
  -- everything that does not concern the lives of tasks at once, the rest action by action
  by_cases hcalm : a.calm = true
  · cases h.calm hcalm hs with
    | steady hst => exact h.quiet (Action.quiet_of_calm hcalm) hst
    | revive ht hc hF hset => exact h.revive ht (Action.quiet_of_calm hcalm) hc (hF _) hset
  cases a with
  | switchOut =>
    obtain ⟨t, ht, hcpu, hy, rfl⟩ := thread_guard_eq_some hs
    exact h.switchOut ht hy
  | act pid frameOk =>
    obtain ⟨t, ht, hcpu, hs⟩ := thread_eq_some hs
    split at hs
    · next hc =>
      cases hs
      exact h.actOn frameOk ht hcpu (by rw [hc]; rfl)
    · contradiction
  | clone pid thread =>
    obtain ⟨t, ht, hcpu, hc, rfl⟩ := thread_guard_eq_some hs
    exact h.clone thread ht hc (hnew rfl)
  | spawn =>
    cases hs
    exact h.spawn (hnew rfl)
  | exitGroupSignal =>
    obtain ⟨t, ht, hcpu, hc, rfl⟩ := thread_guard_eq_some hs
    exact h.stamp ht hcpu (by rw [hc]; rfl) (.inl rfl)
  | exitGroup pid code =>
    obtain ⟨t, ht, hcpu, hs⟩ := thread_eq_some hs
    split at hs
    · next hc =>
      cases hs
      exact h.claimExit ht hcpu (by rw [hc]; exact .exitGroup code) rfl
    · next signo hc =>
      cases hs
      exact h.claimExit ht hcpu (by rw [hc]; exact .fatal signo code) rfl
    · contradiction
  | reparent =>
    obtain ⟨t, ht, hcpu, hs⟩ := thread_eq_some hs
    split at hs
    · next code first hc =>
      cases hs
      refine h.reparent (fun more => if more then .reparenting code false else .killing code) ht
        hcpu (.group code first (congrArg Ctx.coarse hc)) fun more => ?_
      cases more <;> rfl
    · next first hc =>
      cases hs
      refine h.reparent (fun more => if more then .leaving false else .left) ht hcpu
        (.leader first (congrArg Ctx.coarse hc)) fun more => ?_
      cases more <;> rfl
    · contradiction
  | kill pid =>
    obtain ⟨t, ht, hcpu, hs⟩ := thread_eq_some hs
    split at hs
    · next code hc =>
      cases hs
      exact h.kill ht hcpu (.group code (congrArg Ctx.coarse hc)) rfl
    · next hc =>
      cases hs
      -- an exec kills all but itself and the leader, and the leader last
      have hskip : (if t.isLeader = true then 0 else t.tgid) =
          if t.life.pid = t.life.tgid then 0 else t.life.tgid := by
        by_cases hl : t.pid = t.tgid <;> simp [isLeader, life, hl]
      rw [hskip]
      exact h.kill ht hcpu (.dethread (congrArg Ctx.coarse hc)) rfl
    · contradiction
  | exit =>
    obtain ⟨t, ht, hcpu, hs⟩ := thread_eq_some hs
    split at hs
    · next hc =>
      cases hs
      exact h.exit ht hcpu (.inl ⟨by rw [hc]; rfl, rfl⟩)
    · next groupCode hc =>
      cases hs
      exact h.exit ht hcpu (.inr (by rw [hc]; rfl))
    · contradiction
  | dethread =>
    obtain ⟨t, ht, hcpu, hc, rfl⟩ := thread_guard_eq_some hs
    exact h.claimExit ht hcpu (by rw [hc]; exact .dethread) rfl
  | takeOver =>
    obtain ⟨t, ht, hcpu, hs⟩ := thread_eq_some hs
    obtain ⟨hc, hs⟩ := Option.ite_none_right_eq_some.mp hs
    split at hs
    · next hl =>
      cases hs
      have hp := (findPid_eq_some ht).2
      exact .of (h.edit ht rfl rfl (fun _ => rfl))
        (.execLeader (roster_eq_of_find ht) (congrArg Ctx.coarse hc)
          ((beq_iff_eq.mp hl).symm.trans hp))
    · next hl =>
      cases hs
      exact h.takeOver ht hcpu hc (by simpa using hl)
  | wait pid sel consume what =>
    obtain ⟨t, ht, hcpu, hc, rfl⟩ := thread_guard_eq_some hs
    exact h.wait sel consume what ht
  | _ => exact absurd rfl hcalm

end

end Kernel

end Leandros.Sched
