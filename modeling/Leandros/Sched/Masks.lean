import Leandros.Sched.Kernel

/-!
# Leandros.Sched.Masks

**SIGKILL and SIGSTOP stay unblocked**, as long as nobody installs a mask that the
kernel does not filter. Of the writers of `signal_mask`, `rt_sigprocmask` and the
ppoll family drop the two signals; `rt_sigsuspend`, `rt_sigreturn` and the handler's
`sa_mask` do not.

What is kept is a property of single tasks, `Task.Clean`: the mask, every mask that may
still come back, and that neither signal is ever on its way to a handler.

The first section goes through the holds that write no mask; they keep any property of single
tasks. The others are taken one by one, and a run in which somebody does install such a mask shows that
the condition is needed.
-/

namespace Leandros.Sched

open SigSet
open RunQueue
open Leandros.Sched.Task

/-- The set contains neither SIGKILL nor SIGSTOP. -/
def SigSet.Clean (s : SigSet) : Prop := s &&& unblockable = 0

namespace SigSet

instance (s : SigSet) : Decidable s.Clean := inferInstanceAs (Decidable (_ = _))

theorem Clean.zero : Clean 0 := BitVec.zero_and

theorem Clean.or {s t : SigSet} (hs : s.Clean) (ht : t.Clean) : (s ||| t).Clean := by
  unfold Clean at *
  rw [BitVec.and_or_distrib_right, hs, ht]
  rfl

theorem Clean.and_left {s : SigSet} (hs : s.Clean) (t : SigSet) : (s &&& t).Clean := by
  unfold Clean at *
  rw [BitVec.and_assoc, BitVec.and_comm t, ← BitVec.and_assoc, hs]
  exact BitVec.zero_and

theorem Clean.filtered (s : SigSet) : (s &&& ~~~unblockable).Clean := by
  unfold Clean
  rw [BitVec.and_assoc]
  exact BitVec.and_zero

/-- A clean set does not block a signal that cannot be blocked. -/
theorem Clean.not_has {s : SigSet} (hs : s.Clean) {sig : Nat} (hu : unblockable.has sig) :
    s.has sig = false := by
  have : has (s &&& unblockable) sig = false := by rw [hs]; exact BitVec.getLsbD_zero
  rwa [has_and, hu, Bool.and_true] at this

end SigSet

/-! ### Holds that leave masks and shared sets alone -/

/-- A change of a task that touches neither what it is in its group, nor its masks, nor its place in
the kernel, nor what waits at it for the process. -/
structure Task.Inert (t u : Task) : Prop where
  pid : u.pid = t.pid
  tgid : u.tgid = t.tgid
  mask : u.signalMask = t.signalMask
  saved : u.savedSigmask = t.savedSigmask
  ctx : u.ctx = t.ctx
  shared : u.sharedSignalPending = t.sharedSignalPending

section Inert

variable {P : Task → Prop} (hP : ∀ t u, Inert t u → P t → P u)

namespace RunQueue

variable {rq : RunQueue} (h : rq.All P)

include hP h

theorem All.doSignalStop (pid sig : Nat) : (rq.doSignalStop pid sig).All P := by
  unfold RunQueue.doSignalStop
  split
  · refine (h.modifyPid _ fun t _ _ => hP t _ ?_).mapTasks fun t _ => hP t _ ?_
    · exact ⟨rfl, rfl, rfl, rfl, rfl, rfl⟩
    · split_ifs <;> exact ⟨rfl, rfl, rfl, rfl, rfl, rfl⟩
  · exact h

theorem All.sysSigaction (pid sig : Nat) (act : SigAction) : (rq.sysSigaction pid sig act).All P := by
  unfold RunQueue.sysSigaction
  split
  · split
    · split
      · exact h
      · refine h.modifyPid _ fun t _ _ => hP t _ ?_
        exact ⟨rfl, rfl, rfl, rfl, rfl, rfl⟩
    · exact h
  · exact h

theorem All.stampGroup (pid signo : Nat) : (rq.stampGroup pid signo).All P := by
  unfold RunQueue.stampGroup
  split
  · refine h.mapTasks fun t _ => hP t _ ?_
    split <;> exact ⟨rfl, rfl, rfl, rfl, rfl, rfl⟩
  · exact h

theorem All.claimGroupExit {pid : Nat} {rq' : RunQueue} (hc : rq.claimGroupExit pid = some rq') :
    rq'.All P := by
  unfold RunQueue.claimGroupExit at hc
  split at hc <;> try contradiction
  split at hc <;> try contradiction
  split at hc
  · contradiction
  · cases hc
    refine (h.modifyPid _ fun t _ _ => hP t _ ?_).modifyPid _ fun t _ _ => hP t _ ?_
    all_goals exact ⟨rfl, rfl, rfl, rfl, rfl, rfl⟩

end RunQueue

namespace Kernel

variable {k : Kernel} (h : k.rq.All P)

include h in
theorem all_reap (i : Nat) : (k.reap i).rq.All P := by
  unfold reap
  split
  · exact h.remove i
  · exact h

include hP h

theorem all_killMember (i : Nat) (t : Task) (code : Int) : (k.killMember i t code).2.rq.All P := by
  have hm : (k.onQueue (·.modifyAt i fun t =>
      { t with state := .zombie, groupKilled := true, exitCode := code })).rq.All P := by
    refine h.modifyAt (fun t _ => hP t _ ?_) i
    exact ⟨rfl, rfl, rfl, rfl, rfl, rfl⟩
  unfold killMember
  split
  · exact hm
  · exact all_reap hm i

theorem all_killNextGroupMember (pid : Nat) (code : Int) (skip : Nat) (klocks : Nat → Nat) :
    (k.killNextGroupMember pid code skip klocks).2.rq.All P := by
  simp only [killNextGroupMember]
  split
  · exact h
  split
  · exact all_killMember hP h _ _ _
  split
  · exact h
  · split
    · exact all_killMember hP h _ _ _
    · exact h

theorem all_switchOut (pid klocks : Nat) : (k.switchOut pid klocks).rq.All P := by
  have hm : ∀ i, (k.rq.modifyAt i fun t => switchedOut t klocks).All P := by
    refine fun i => h.modifyAt (fun t _ => hP t _ ?_) i
    exact ⟨rfl, rfl, rfl, rfl, rfl, rfl⟩
  unfold switchOut
  split
  · split
    · exact all_reap (hm _) _
    · exact hm _
  · exact h

theorem all_reparentPass (dead : Nat) (first : Bool) : (k.reparentPass dead first).2.rq.All P := by
  unfold reparentPass
  split
  · exact h
  · refine List.foldlRecOn (motive := fun (rq : RunQueue) => rq.All P) _ _ h
      fun _ hrq pid _ => hrq.modifyPid pid fun t _ _ => hP t _ ?_
    exact ⟨rfl, rfl, rfl, rfl, rfl, rfl⟩

theorem all_waitScan (sel : WaitSel) (caller : Nat) (consume : Bool) (what : WaitWhat) :
    (k.waitScan sel caller consume what).2.rq.All P := by
  have ho := waitScan_outcome k sel caller consume what
  generalize k.waitScan sel caller consume what = r at ho ⊢
  cases ho with
  | zombie | stopped | continued =>
    split
    · refine h.modifyAt (fun t _ => hP t _ ?_) _
      exact ⟨rfl, rfl, rfl, rfl, rfl, rfl⟩
    · exact h
  | record | spilled =>
    split <;> exact h
  | stillRunning | noChildren => exact h

end Kernel

end Inert

namespace Task

/-- The masks a context holds, and what it says about SIGKILL and SIGSTOP. -/
def CleanCtx : Ctx → Prop
  | .masked oldMask => oldMask.Clean
  | .sampled sig action _ _ => unblockable.has sig → action = defaultSigaction
  | .dequeued sig action _ _ => unblockable.has sig → action = defaultSigaction
  | _ => True

/-- No mask of the task blocks SIGKILL or SIGSTOP, now or when a saved one comes back. -/
structure Clean (t : Task) : Prop where
  mask : t.signalMask.Clean
  saved : ∀ m, t.savedSigmask = some m → m.Clean
  ctx : CleanCtx t.ctx

theorem Clean.inert (t u : Task) (hi : Inert t u) (h : t.Clean) : u.Clean where
  mask := hi.mask ▸ h.mask
  saved := hi.saved ▸ h.saved
  ctx := hi.ctx ▸ h.ctx

end Task

namespace RunQueue

/-! ### The other holds, one by one -/

section

variable {rq : RunQueue} (h : rq.All Clean)

include h

theorem clean_setCtx (pid : Nat) {c : Ctx} (hc : CleanCtx c) : (rq.setCtx pid c).All Clean :=
  h.modifyPid pid fun _ _ _ ht => ⟨ht.mask, ht.saved, hc⟩

theorem clean_replaceSignalMask (pid : Nat) {m : SigSet} (hm : m.Clean) :
    (rq.replaceSignalMask pid m).All Clean :=
  h.modifyPid pid fun _ _ _ ht => ⟨hm, ht.saved, ht.ctx⟩

theorem clean_onSignalGenerated (tgid sig : Nat) : (rq.onSignalGenerated tgid sig).All Clean := by
  unfold onSignalGenerated
  split
  · refine (h.mapTasks fun t _ ht => ?_).modifyPid tgid fun t _ _ ht => ?_
    · split_ifs <;> exact ⟨ht.mask, ht.saved, ht.ctx⟩
    · exact ⟨ht.mask, ht.saved, ht.ctx⟩
  · split
    · refine (h.mapTasks fun t _ ht => ?_).modifyPid tgid fun t _ _ ht => ?_
      · split_ifs <;> exact ⟨ht.mask, ht.saved, ht.ctx⟩
      · exact ⟨ht.mask, ht.saved, ht.ctx⟩
    · exact h

theorem clean_postSignalThread (pid sig : Nat) (info : SigInfo) :
    (rq.postSignalThread pid sig info).2.All Clean := by
  unfold postSignalThread
  split
  · split
    · refine (clean_onSignalGenerated h _ _).modifyPid pid fun t _ _ ht => ?_
      exact ⟨ht.mask, ht.saved, ht.ctx⟩
    · exact h
  · exact h

theorem clean_deliverSignalProcess (tgid sig : Nat) (info : SigInfo) :
    (rq.deliverSignalProcess tgid sig info).2.All Clean := by
  have hg := clean_onSignalGenerated h tgid sig
  unfold deliverSignalProcess
  split
  · simp only [postSignalProcess]
    split
    · refine hg.modifyAt (fun t _ ht => ?_) _
      exact ⟨ht.mask, ht.saved, ht.ctx⟩
    split
    · refine hg.modifyAt (fun t _ ht => ?_) _
      exact ⟨ht.mask, ht.saved, ht.ctx⟩
    · exact hg
  · exact h

theorem clean_claimShared (pid : Nat) : (rq.claimShared pid).All Clean := by
  unfold claimShared
  split
  · split
    · split
      · exact clean_setCtx h pid trivial
      · refine (h.modifyPid pid fun t _ _ ht => ?_).modifyPid _ fun t _ _ ht => ?_
        all_goals exact ⟨ht.mask, ht.saved, ht.ctx⟩
    · exact h
  · exact h

/-- A sampled SIGKILL or SIGSTOP has the default action. -/
theorem clean_sample (pid : Nat) : (rq.sample pid).All Clean := by
  unfold sample
  split
  · next t ht =>
    split
    · refine h.modifyPid pid fun u _ _ hu => ?_
      exact ⟨hu.mask, hu.saved, hu.ctx⟩
    split
    · split
      · next m hm =>
        have htc := h t (findPid_eq_some ht).1
        refine h.modifyPid pid fun u _ _ hu => ?_
        exact ⟨htc.saved m hm, fun _ h => absurd h (by simp), hu.ctx⟩
      · exact h
    · refine h.modifyPid pid fun u _ _ hu => ⟨hu.mask, hu.saved, fun hsig => ?_⟩
      exact if_pos hsig
  · exact h

theorem clean_stopNowIfPending (pid sig : Nat) : (rq.stopNowIfPending pid sig).All Clean := by
  unfold stopNowIfPending
  split
  · split
    · exact h
    simp only
    split
    · refine ((h.mapTasks fun t _ ht => ?_).modifyPid _ fun t _ _ ht => ?_).modifyPid _
        fun t _ _ ht => ?_
      · split <;> exact ⟨ht.mask, ht.saved, ht.ctx⟩
      · exact ⟨ht.mask, ht.saved, ht.ctx⟩
      · exact ⟨ht.mask, ht.saved, fun _ => rfl⟩
    · split
      · refine h.modifyPid pid fun t _ _ ht => ?_
        exact ⟨ht.mask, ht.saved, ht.ctx⟩
      · exact h
  · exact h

theorem clean_enterHandler (pid sig : Nat) {action : SigAction} (hsig : (bit sig).Clean)
    (ha : action.flags &&& saNodefer = 0 → action.mask.Clean) :
    (rq.enterHandler pid sig action).All Clean := by
  have hmask : (rq.modifyPid pid fun t =>
      { t with
        savedSigmask := none
        signalMask :=
          if action.flags &&& saNodefer = 0 then t.signalMask ||| .bit sig ||| action.mask
          else t.signalMask }).All Clean := by
    refine h.modifyPid pid fun t _ _ ht => ⟨?_, fun _ h => absurd h (by simp), ht.ctx⟩
    split
    · next hf => exact (ht.mask.or hsig).or (ha hf)
    · exact ht.mask
  simp only [enterHandler]
  split
  -- a handler that is used once only loses its action
  · refine hmask.modifyPid _ fun t _ _ ht => ?_
    exact ⟨ht.mask, ht.saved, ht.ctx⟩
  · exact hmask

theorem clean_sysSigprocmask (pid how : Nat) (set : SigSet) :
    (rq.sysSigprocmask pid how set).All Clean := by
  refine h.modifyPid pid fun t _ _ ht => ⟨?_, ht.saved, ht.ctx⟩
  split
  · exact ht.mask.or (.filtered set)
  · exact ht.mask.and_left _
  · exact .filtered set
  · exact ht.mask

end

end RunQueue

namespace Kernel

section

variable {k : Kernel} (h : k.rq.All Clean)

include h

theorem clean_takeOverLeader (pid tgid : Nat) (klocks : Nat → Nat) :
    (k.takeOverLeader pid tgid klocks).2.rq.All Clean := by
  unfold takeOverLeader
  split
  · exact h
  -- the leader is gone, still busy, or replaced; no step of it writes a mask
  split
  · refine h.modifyAt (fun t _ ht => ?_) _
    exact ⟨ht.mask, ht.saved, ht.ctx⟩
  split
  · exact h
  split
  · refine h.modifyAt (fun t _ ht => ?_) _
    exact ⟨ht.mask, ht.saved, ht.ctx⟩
  refine (((h.modifyAt (fun t _ ht => ?_) _).modifyAt (fun t _ ht => ?_) _).mapTasks
    fun t _ ht => ?_).remove _
  · exact ⟨ht.mask, ht.saved, ht.ctx⟩
  · exact ⟨ht.mask, ht.saved, ht.ctx⟩
  · split <;> exact ⟨ht.mask, ht.saved, ht.ctx⟩

end

/-! ### Whole runs -/

/-- A kernel as it starts: no thread has a temporary mask or is in kernel code, and no mask
blocks the two signals. -/
def Started (k : Kernel) : Prop :=
  ∀ t ∈ k.rq, t.signalMask.Clean ∧ t.savedSigmask = none ∧ t.ctx = .elsewhere

/-- The masks that reach `signal_mask` unfiltered do not contain SIGKILL or SIGSTOP: the
argument of `rt_sigsuspend`, the mask in a frame that `rt_sigreturn` restores, and the
`sa_mask` of a handler that is entered without `SA_NODEFER`. -/
def CleanMasks (k : Kernel) : Action → Prop
  | .sigsuspend _ mask => mask.Clean
  | .sigreturn _ mask => mask.Clean
  | .act pid _ => ∀ t, k.rq.findPid pid = some t → ∀ sig action oldMask info,
      t.ctx = .dequeued sig action oldMask info → 2 ≤ action.handler →
      action.flags &&& saNodefer = 0 → action.mask.Clean
  | _ => True

section

variable {k k' : Kernel} (h : k.rq.All Clean)

include h

theorem clean_cloneTask {t : Task} (ht : t.Clean) (thread : Bool) :
    (k.cloneTask t thread).rq.All Clean := by
  have hchild : (k.newChild t thread).Clean := ⟨ht.mask, fun _ h => absurd h (by simp [newChild,
    newKernel]), trivial⟩
  simp only [cloneTask]
  split
  · split
    · next he => exact h.enqueue hchild he
    · exact h
  · exact h

theorem clean_spawn : k.spawn.rq.All Clean := by
  have hnew : (newKernel k.nextPid).Clean :=
    ⟨Clean.zero, fun _ h => absurd h (by simp [newKernel]), trivial⟩
  simp only [spawn]
  split
  · next he => exact h.enqueue hnew he
  · exact h

theorem clean_claimExit (pid : Nat) (code : Int) {won : Ctx} (hw : CleanCtx won) :
    (k.claimExit pid code won).rq.All Clean := by
  unfold claimExit
  split
  · next hc => exact clean_setCtx (h.claimGroupExit Clean.inert hc) pid hw
  · exact h.modifyPid pid fun _ _ _ ht => ⟨ht.mask, ht.saved, trivial⟩

omit h in
theorem clean_afterKill {r : GroupKillStep × Kernel} (h : r.2.rq.All Clean) (pid : Nat)
    {next : Ctx} (hn : CleanCtx next) : (afterKill pid next r).rq.All Clean := by
  unfold afterKill
  split
  · exact clean_setCtx h pid hn
  · exact h

/-- A dequeued signal is acted on: the handler is where a mask comes from user space. -/
theorem clean_actOn {pid sig : Nat} {action : SigAction} {frameOk : Bool}
    (hdef : unblockable.has sig → action = defaultSigaction)
    (ha : 2 ≤ action.handler → action.flags &&& saNodefer = 0 → action.mask.Clean) :
    (k.actOn pid sig action frameOk).rq.All Clean := by
  unfold actOn
  split
  · split
    · exact clean_setCtx h pid trivial
    · split
      · exact clean_setCtx (h.doSignalStop Clean.inert pid sig) pid trivial
      · exact clean_setCtx (h.stampGroup Clean.inert pid sig) pid trivial
  · next h0 =>
    split
    · exact clean_setCtx h pid trivial
    · next h1 =>
      -- a signal that has a handler is none of the two
      have hbit : (bit sig).Clean := by
        have hnot : unblockable.has sig = false :=
          Bool.eq_false_iff.mpr fun hu => h0 (congrArg SigAction.handler (hdef hu))
        refine BitVec.eq_of_getLsbD_eq fun i hi => ?_
        rw [bit]
        by_cases hs : sig - 1 = i
        · subst hs
          have : unblockable.getLsbD (sig - 1) = false := hnot
          simp [this]
        · simp [hs]
      refine clean_setCtx (clean_enterHandler h pid sig hbit
        (ha (by omega))) pid ?_
      split
      · exact trivial
      · exact fun _ => rfl

/-- Every step keeps the masks clean. -/
theorem clean_step {a : Action} (hok : k.CleanMasks a) (hs : k.step a = some k') :
    k'.rq.All Clean := by
  have hself : ∀ {pid t}, k.rq.findPid pid = some t → t.Clean :=
    fun ht => h _ (findPid_eq_some ht).1
  cases a with
  | dispatch pid | wake pid =>
    simp only [step] at hs
    split at hs
    · obtain ⟨-, rfl⟩ := guard_eq_some hs
      refine h.modifyPid pid fun t _ _ ht => ?_
      exact ⟨ht.mask, ht.saved, ht.ctx⟩
    · contradiction
  | block pid | cancel pid =>
    obtain ⟨t, ht, -, -, rfl⟩ := thread_guard_eq_some hs
    refine h.modifyPid pid fun t _ _ ht => ?_
    exact ⟨ht.mask, ht.saved, ht.ctx⟩
  | switchOut pid klocks =>
    obtain ⟨t, ht, -, -, rfl⟩ := thread_guard_eq_some hs
    exact all_switchOut Clean.inert h pid klocks
  | postProcess tgid sig info =>
    cases hs
    exact clean_deliverSignalProcess h tgid sig info
  | postThread pid sig info =>
    cases hs
    exact clean_postSignalThread h pid sig info
  | claimShared pid =>
    obtain ⟨t, ht, -, -, rfl⟩ := thread_guard_eq_some hs
    exact clean_claimShared h pid
  | sample pid =>
    obtain ⟨t, ht, -, -, rfl⟩ := thread_guard_eq_some hs
    exact clean_sample h pid
  | dequeue pid =>
    obtain ⟨t, ht, -, hs⟩ := thread_eq_some hs
    split at hs <;> try contradiction
    next hctx =>
    cases hs
    -- what it takes off the queue it had sampled, with the action of that moment
    have := (hself ht).ctx
    rw [hctx] at this
    exact h.modifyPid pid fun _ _ _ ht => ⟨ht.mask, ht.saved, this⟩
  | act =>
    obtain ⟨t, ht, -, hs⟩ := thread_eq_some hs
    split at hs <;> try contradiction
    next hctx =>
    cases hs
    have := (hself ht).ctx
    rw [hctx] at this
    -- the handler's own mask is the caller's affair
    exact clean_actOn h this (hok t ht _ _ _ _ hctx)
  | stopNow pid sig =>
    obtain ⟨t, ht, -, -, rfl⟩ := thread_guard_eq_some hs
    exact clean_stopNowIfPending h pid sig
  | sigprocmask pid how set =>
    obtain ⟨t, ht, -, -, rfl⟩ := thread_guard_eq_some hs
    exact clean_sysSigprocmask h pid how set
  | sigaction pid sig action =>
    obtain ⟨t, ht, -, -, rfl⟩ := thread_guard_eq_some hs
    exact h.sysSigaction Clean.inert pid sig action
  | sigsuspend pid mask =>
    obtain ⟨t, ht, -, -, rfl⟩ := thread_guard_eq_some hs
    exact clean_setCtx (clean_replaceSignalMask h pid hok) pid (hself ht).mask
  | maskedWait pid mask =>
    obtain ⟨t, ht, -, -, rfl⟩ := thread_guard_eq_some hs
    exact clean_setCtx (clean_replaceSignalMask h pid (.filtered mask)) pid
      (hself ht).mask
  | endWait pid =>
    obtain ⟨t, ht, -, hs⟩ := thread_eq_some hs
    split at hs <;> try contradiction
    next oldMask hctx =>
    cases hs
    -- the mask that comes back after the wait is the one that was stashed
    have hold : oldMask.Clean := by
      have := (hself ht).ctx
      rwa [hctx] at this
    refine clean_setCtx ?_ pid trivial
    split
    · refine h.modifyPid pid fun u _ _ hu => ?_
      exact ⟨hu.mask, fun m hm => Option.some.inj hm ▸ hold, hu.ctx⟩
    · exact clean_replaceSignalMask h pid hold
  | sigreturn pid =>
    obtain ⟨t, ht, -, -, rfl⟩ := thread_guard_eq_some hs
    exact clean_replaceSignalMask h pid hok
  | resetHandlers =>
    obtain ⟨t, ht, -, -, rfl⟩ := thread_guard_eq_some hs
    refine h.modifyPid _ fun u _ _ hu => ?_
    exact ⟨hu.mask, hu.saved, hu.ctx⟩
  | clone pid thread =>
    obtain ⟨t, ht, -, -, rfl⟩ := thread_guard_eq_some hs
    exact clean_cloneTask h (hself ht) thread
  | spawn =>
    cases hs
    exact clean_spawn h
  | exitGroupSignal pid signo =>
    obtain ⟨t, ht, -, -, rfl⟩ := thread_guard_eq_some hs
    exact clean_setCtx (h.stampGroup Clean.inert pid signo) pid trivial
  | exitGroup pid =>
    obtain ⟨t, ht, -, hs⟩ := thread_eq_some hs
    split at hs
    · cases hs
      exact clean_claimExit h pid _ trivial
    · cases hs
      exact clean_claimExit h pid _ trivial
    · contradiction
  | reparent pid =>
    obtain ⟨t, ht, -, hs⟩ := thread_eq_some hs
    split at hs
    all_goals first | contradiction | cases hs
    all_goals
      refine clean_setCtx (all_reparentPass Clean.inert h _ _) pid ?_
      cases (k.reparentPass t.tgid _).1 <;> exact trivial
  | kill pid klocks =>
    obtain ⟨t, ht, -, hs⟩ := thread_eq_some hs
    split at hs
    · cases hs
      exact clean_afterKill (all_killNextGroupMember Clean.inert h pid _ _ klocks) pid trivial
    · cases hs
      exact clean_afterKill (all_killNextGroupMember Clean.inert h pid _ _ klocks) pid trivial
    · contradiction
  | exit pid =>
    obtain ⟨t, ht, -, hs⟩ := thread_eq_some hs
    split at hs
    all_goals first | contradiction | cases hs
    all_goals
      refine clean_setCtx (h.modifyPid pid fun _ _ _ ht => ?_) pid ?_
      · exact ⟨ht.mask, ht.saved, ht.ctx⟩
      · split <;> exact trivial
  | dethread pid =>
    obtain ⟨t, ht, -, -, rfl⟩ := thread_guard_eq_some hs
    exact clean_claimExit h pid 0 trivial
  | takeOver pid klocks =>
    obtain ⟨t, ht, -, hs⟩ := thread_eq_some hs
    obtain ⟨-, hs⟩ := Option.ite_none_right_eq_some.mp hs
    split at hs
    · cases hs
      refine h.modifyPid pid fun u _ _ hu => ?_
      exact ⟨hu.mask, hu.saved, trivial⟩
    · cases hs
      have htake := clean_takeOverLeader h pid t.tgid klocks
      unfold afterTakeOver
      split
      · exact clean_setCtx htake _ trivial
      · exact clean_setCtx htake _ trivial
      · exact htake
  | wait pid sel consume what =>
    obtain ⟨t, ht, -, -, rfl⟩ := thread_guard_eq_some hs
    exact all_waitScan Clean.inert h sel t.tgid consume what

end

theorem Started.clean {k : Kernel} (h : k.Started) : k.rq.All Clean := by
  intro t ht
  obtain ⟨hm, hs, hc⟩ := h t ht
  refine ⟨hm, fun m hsome => ?_, hc ▸ trivial⟩
  rw [hs] at hsome
  contradiction

/-- **SIGKILL and SIGSTOP are never blocked** in a run in which the unfiltered masks do not
contain them, so a pending SIGKILL is always among the signals a thread delivers. -/
theorem sigkill_never_blocked {k : Kernel} (h : Reachable Started CleanMasks step k) :
    ∀ t ∈ k.rq, t.signalMask.has sigkill = false ∧ t.signalMask.has sigstop = false ∧
      (t.signalPending.has sigkill = true →
        (t.signalPending &&& ~~~t.signalMask).has sigkill = true) := by
  have hall : k.rq.All Clean :=
    h.invariant (fun _ h => h.clean) fun _ _ _ h hok hs => clean_step h hok hs
  intro t ht
  have hmask := (hall t ht).mask
  have hkill : t.signalMask.has sigkill = false := hmask.not_has (by decide)
  refine ⟨hkill, hmask.not_has (by decide), fun hp => ?_⟩
  rw [has_and, has_not (by decide), hp, hkill]
  rfl

/-- One process with one thread, which runs. -/
def oneProcess : Kernel where
  rq :=
    { tasks := OrdMap.empty.insert 0 { newKernel 1 with state := .running, onCpu := some 0 }
      len := 1
      nproc := 1 }
  exitLog := .new
  initPid := 1
  nextPid := 2

theorem started_oneProcess : oneProcess.Started := by
  rintro t ⟨i, hi⟩
  obtain ⟨-, rfl⟩ := guard_eq_some hi
  exact ⟨Clean.zero, rfl, rfl⟩

/-- After `rt_sigprocmask` with every bit set, a SIGKILL is still delivered. -/
theorem sigkill_never_blocked_setmask : ∃ k, Reachable Started CleanMasks step k ∧
      (k.rq.findPid 1).map (fun t => t.signalPending.has sigkill) = some true ∧
      ∀ t ∈ k.rq, t.signalMask.has sigkill = false ∧ t.signalMask.has sigstop = false ∧
        (t.signalPending.has sigkill = true →
          (t.signalPending &&& ~~~t.signalMask).has sigkill = true) := by
  have hrun : Reachable Started CleanMasks step _ :=
    ((Reachable.start started_oneProcess).next
      (a := .sigprocmask 1 2 (BitVec.allOnes 64)) trivial rfl).next
      (a := .postProcess 1 sigkill .none) trivial rfl
  exact ⟨_, hrun, by decide +kernel, sigkill_never_blocked hrun⟩

/-- `rt_sigsuspend` installs any mask: with all bits set, SIGKILL is blocked, and one that is
sent stays pending and is not delivered. -/
theorem sigsuspend_blocks_sigkill : ∃ k, Reachable Started (fun _ _ => True) step k ∧
      (k.rq.findPid 1).map (fun t =>
        (t.signalMask.has sigkill, t.signalPending.has sigkill,
          (t.signalPending &&& ~~~t.signalMask).has sigkill)) = some (true, true, false) := by
  have hrun : Reachable Started (fun _ _ => True) step _ :=
    ((Reachable.start started_oneProcess).next
      (a := .sigsuspend 1 (BitVec.allOnes 64)) trivial rfl).next
      (a := .postProcess 1 sigkill .none) trivial rfl
  exact ⟨_, hrun, by decide +kernel⟩

end Kernel

end Leandros.Sched
