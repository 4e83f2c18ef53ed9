import Leandros.Sched.Masks

/-!
# Leandros.Sched.Targets

**Who gets a signal that is sent to a process.** `post_signal_process` takes the first thread
of the group, in slot order, that does not block the signal, and a `Blocked` one before all
others. It does not look whether the thread is a zombie: one that has ended and is still in
its slot takes the signal with it. If every thread blocks the signal, it waits in the shared set
of the leader for the first thread that unblocks it. The set goes when the leader is reaped, which
may be long before the last of its threads ends (`zombie_takes_signal` shows the three ways in
which a signal is lost).

* `Targeted` — no zombie comes first, and there is a leader to wait at.
* `Lands` — where the signal then is.
* `Retains` — a step that neither takes the signal from the leader nor the leader from the queue.
  Every other step of the scheduler keeps it there (`parked_step`).
* `process_signal_reaches_live_thread` — the generation, and all runs from there until the signal
  is claimed.
-/

namespace Leandros.Sched

open OrdMap
open SigSet
open RunQueue

theorem SigSet.has_bit {sig : Nat} (h : Valid sig) : has (bit sig) sig = true := by
  unfold Valid at h
  simp only [has, bit]
  simp
  omega

namespace RunQueue

/-- No zombie is in the way of a live thread: if one could take the signal, a `Blocked` thread or
a live one in an earlier slot can too. And a signal that every thread blocks has a leader to
wait at, which is dead only if the whole group is. -/
structure Targeted (rq : RunQueue) (tgid sig : Nat) : Prop where
  live : ∀ i t, rq.tasks.get? i = some t → eligible tgid sig t = true → t.state = .zombie →
    (∃ u ∈ rq, eligible tgid sig u = true ∧ u.state = .blocked) ∨
      ∃ j < i, ∃ u, rq.tasks.get? j = some u ∧ eligible tgid sig u = true ∧ u.state ≠ .zombie
  leader : (∀ t ∈ rq, eligible tgid sig t = false) → ∃ i l, rq.tasks.get? i = some l ∧
    l.pid = tgid ∧ l.tgid = tgid ∧ (∀ j u, rq.tasks.get? j = some u → u.pid = tgid → j = i) ∧
    (l.state = .zombie → ∀ t ∈ rq, t.tgid = tgid → t.state = .zombie)

/-- The task is not the leader of the group, or has the signal in its shared set. -/
def Parked (tgid sig : Nat) (t : Task) : Prop :=
  t.pid = tgid → t.tgid = tgid ∧ t.sharedSignalPending.has sig = true

/-- Where the signal is after its generation. -/
inductive Lands (rq rq' : RunQueue) (tgid sig : Nat) : Prop
  /-- A live thread that does not block it has it, and runs if it was blocked. -/
  | thread (i : Nat) (t u : Task) (ht : rq.tasks.get? i = some t)
      (he : eligible tgid sig t = true) (hlive : t.state ≠ .zombie)
      (hu : rq'.tasks.get? i = some u) (hpid : u.pid = t.pid)
      (hp : u.signalPending.has sig = true) (hlive' : u.state ≠ .zombie)
      (hready : t.state = .blocked → u.state = .ready)
  /-- Every thread blocks it, and it is at the leader, who is alive if any thread is. -/
  | parked (hnone : ∀ t ∈ rq, eligible tgid sig t = false) (l : Task)
      (hl : l ∈ rq') (hpid : l.pid = tgid) (hp : l.sharedSignalPending.has sig = true)
      (hlive : l.state = .zombie → ∀ t ∈ rq, t.tgid = tgid → t.state = .zombie)
      (hall : rq'.All (Parked tgid sig))

/-! ### Generation -/

/-- What `on_signal_generated` keeps of a task. -/
structure Roused (t u : Task) : Prop where
  pid : u.pid = t.pid
  tgid : u.tgid = t.tgid
  mask : u.signalMask = t.signalMask
  state : u.state = t.state ∨ t.state = .stopped ∧ u.state = .ready

variable {rq : RunQueue} {tgid sig pid i : Nat} {t : Task}

theorem get?_modifyPid (rq : RunQueue) (pid : Nat) (f : Task → Task) (i : Nat) :
    ∃ f', (f' = f ∨ f' = id) ∧ (rq.modifyPid pid f).tasks.get? i = (rq.tasks.get? i).map f' := by
  unfold modifyPid
  split
  · next j _ =>
    by_cases hij : i = j
    · exact ⟨f, .inl rfl, by simp [modifyAt, hij]⟩
    · exact ⟨id, .inr rfl, by simp [modifyAt, hij]⟩
  · exact ⟨id, .inr rfl, by simp⟩

/-- Generating a signal changes each task by itself. -/
theorem onSignalGenerated_get? (rq : RunQueue) (tgid sig i : Nat) : ∃ f, (∀ t, Roused t (f t)) ∧
      (rq.onSignalGenerated tgid sig).tasks.get? i = (rq.tasks.get? i).map f := by
  -- A change to the group's members, then one to the leader.
  have htwo : ∀ g h, (∀ t, Roused t (g t)) → (∀ t, Roused t (h (g t))) →
      ∃ f, (∀ t, Roused t (f t)) ∧
        ((rq.mapTasks g).modifyPid tgid h).tasks.get? i = (rq.tasks.get? i).map f := by
    intro g h hg hh
    obtain ⟨f', hf', he⟩ := get?_modifyPid (rq.mapTasks g) tgid h i
    simp only [mapTasks, get?_mapVals, Option.map_map] at he
    rcases hf' with rfl | rfl
    · exact ⟨_, hh, he⟩
    · exact ⟨_, hg, he⟩
  have hresume : ∀ t, Roused t (if t.tgid = tgid then t.resume (sig = sigcont) else t) := by
    intro t
    split
    · refine ⟨rfl, rfl, rfl, ?_⟩
      simp only [Task.resume]
      split
      · next hs => exact .inr ⟨hs, rfl⟩
      · exact .inl rfl
    · exact ⟨rfl, rfl, rfl, .inl rfl⟩
  have hdrop : ∀ t, Roused t (if t.tgid = tgid then t.dropCont else t) := by
    intro t
    split <;> exact ⟨rfl, rfl, rfl, .inl rfl⟩
  unfold onSignalGenerated
  split
  · exact htwo _ _ hresume fun t => ⟨(hresume t).pid, (hresume t).tgid, (hresume t).mask,
      (hresume t).state⟩
  · split
    · exact htwo _ _ hdrop fun t => ⟨(hdrop t).pid, (hdrop t).tgid, (hdrop t).mask, (hdrop t).state⟩
    · exact ⟨id, fun t => ⟨rfl, rfl, rfl, .inl rfl⟩, by simp⟩

theorem Roused.eligible {u : Task} (h : Roused t u) :
    RunQueue.eligible tgid sig u = RunQueue.eligible tgid sig t := by
  simp [RunQueue.eligible, h.tgid, h.mask]

/-- The task in a slot, before the generation. -/
theorem roused_of_get? {u : Task} (h : (rq.onSignalGenerated tgid sig).tasks.get? i = some u) :
    ∃ t, rq.tasks.get? i = some t ∧ Roused t u := by
  obtain ⟨f, hf, he⟩ := rq.onSignalGenerated_get? tgid sig i
  rw [he] at h
  obtain ⟨t, ht, rfl⟩ := Option.map_eq_some_iff.mp h
  exact ⟨t, ht, hf t⟩

theorem get?_roused (tgid sig : Nat) (h : rq.tasks.get? i = some t) :
    ∃ u, (rq.onSignalGenerated tgid sig).tasks.get? i = some u ∧ Roused t u := by
  obtain ⟨f, hf, he⟩ := rq.onSignalGenerated_get? tgid sig i
  exact ⟨f t, by rw [he, h]; rfl, hf t⟩

/-! ### The choice -/

/-- The thread that is chosen: a blocked one, or the first if none is blocked. -/
theorem chooseThread_eq_some (h : rq.chooseThread tgid sig = some i) :
    ∃ t, rq.tasks.get? i = some t ∧ eligible tgid sig t = true ∧ (t.state = .blocked ∨
      (∀ u ∈ rq, eligible tgid sig u = true → u.state ≠ .blocked) ∧
        ∀ j < i, ∀ u, rq.tasks.get? j = some u → eligible tgid sig u = false) := by
  unfold chooseThread at h
  -- a blocked one anywhere goes before the first one of all
  cases hb : rq.tasks.findKey? fun t => eligible tgid sig t && t.state == .blocked with
  | some =>
    rw [hb] at h
    cases h
    obtain ⟨t, ht, hp⟩ := findKey?_eq_some hb
    rw [Bool.and_eq_true, beq_iff_eq] at hp
    exact ⟨t, ht, hp.1, .inl hp.2⟩
  | none =>
    rw [hb] at h
    obtain ⟨t, ht, hp⟩ := findKey?_eq_some h
    refine ⟨t, ht, hp, .inr ⟨fun u ⟨j, hj⟩ he hs => ?_, fun j hj u hu =>
      findKey?_lt h hj hu⟩⟩
    have := findKey?_eq_none.mp hb j u hj
    simp [he, hs] at this

/-- **Where no zombie comes first, the chosen thread is alive.** -/
theorem Targeted.chosen (h : rq.Targeted tgid sig)
    (hc : (rq.onSignalGenerated tgid sig).chooseThread tgid sig = some i) :
    ∃ t u, rq.tasks.get? i = some t ∧ (rq.onSignalGenerated tgid sig).tasks.get? i = some u ∧
      Roused t u ∧ eligible tgid sig t = true ∧ t.state ≠ .zombie := by
  obtain ⟨u, hu, he, hcase⟩ := chooseThread_eq_some hc
  obtain ⟨t, ht, hr⟩ := roused_of_get? hu
  rw [hr.eligible] at he
  refine ⟨t, u, ht, hu, hr, he, fun hz => ?_⟩
  -- the step before the choice wakes stopped threads; it does not bring a zombie back
  have huz : u.state = .zombie := by
    rcases hr.state with hs | ⟨hs, -⟩
    · exact hs.trans hz
    · rw [hz] at hs
      contradiction
  rcases hcase with hb | ⟨hnob, hfirst⟩
  · rw [huz] at hb
    contradiction
  rcases h.live i t ht he hz with ⟨v, ⟨j, hv⟩, hve, hvb⟩ | ⟨j, hj, v, hv, hve, -⟩
  -- a blocked thread comes first, and it is still blocked when the choice is made
  · obtain ⟨w, hw, hvw⟩ := get?_roused tgid sig hv
    refine hnob w ⟨j, hw⟩ (hvw.eligible.trans hve) ?_
    rcases hvw.state with hs | ⟨hs, -⟩
    · exact hs.trans hvb
    · rw [hvb] at hs
      contradiction
  -- or a thread in an earlier slot
  · obtain ⟨w, hw, hvw⟩ := get?_roused tgid sig hv
    have := hfirst j hj w hw
    rw [hvw.eligible, hve] at this
    contradiction

/-- **A signal for a process** goes to a live thread, or waits at the leader. -/
theorem Targeted.lands (h : rq.Targeted tgid sig) (hv : Valid sig) (info : SigInfo) :
    Lands rq (rq.deliverSignalProcess tgid sig info).2 tgid sig := by
  rw [deliverSignalProcess, if_pos hv]
  simp only [postSignalProcess]
  cases hc : (rq.onSignalGenerated tgid sig).chooseThread tgid sig with
  | some i =>
    obtain ⟨t, u, ht, hu, hr, he, hlive⟩ := h.chosen hc
    have hulive : u.state ≠ .zombie := by
      rcases hr.state with hs | ⟨-, hs⟩
      · rwa [hs]
      · simp [hs]
    refine .thread i t (u.queue sig info) ht he hlive (by simp [modifyAt, hu]) hr.pid ?_ ?_
      fun hb => ?_
    · simp [Task.queue, has_bit hv]
    · simp only [Task.queue]
      split
      · simp
      · exact hulive
    · have hub : u.state = .blocked := by
        rcases hr.state with hs | ⟨hs, -⟩
        · exact hs.trans hb
        · simp [hb] at hs
      simp [Task.queue, hub]
  | none =>
    have hnone : ∀ t ∈ rq, eligible tgid sig t = false := by
      rintro t ⟨j, ht⟩
      obtain ⟨u, hu, hr⟩ := get?_roused tgid sig ht
      rw [← hr.eligible]
      exact findKey?_eq_none.mp (Option.or_eq_none_iff.mp hc).2 j u hu
    obtain ⟨j, l, hj, hl, hlt, hone, hlive⟩ := h.leader hnone
    obtain ⟨u, hu, hr⟩ := get?_roused tgid sig hj
    dsimp only
    split
    · next li hi =>
      -- the slot that is found is the leader's
      obtain ⟨v, hv', hp⟩ := findPidIdx_eq_some hi
      obtain ⟨l', hl', hr'⟩ := roused_of_get? hv'
      obtain rfl := hone li l' hl' (hr'.pid.symm.trans hp)
      cases hu.symm.trans hv'
      have hbit : (u.queueShared sig info).sharedSignalPending.has sig = true := by
        simp [Task.queueShared, has_bit hv]
      refine .parked hnone (u.queueShared sig info) ⟨li, by simp [modifyAt, hu]⟩ hp hbit ?_ ?_
      · intro hz
        refine hlive ?_
        rcases hr.state with hs | ⟨-, hs⟩
        · exact hs.symm.trans hz
        · exact absurd (hs.symm.trans hz) (by simp)
      · rintro w ⟨i, hw⟩ hwp
        simp only [modifyAt, get?_modify] at hw
        split at hw
        · rw [hu] at hw
          cases hw
          exact ⟨hr.tgid.trans hlt, hbit⟩
        · next hne =>
          obtain ⟨x, hx, hxr⟩ := roused_of_get? hw
          exact absurd (hone i x hx (hxr.pid.symm.trans hwp)) hne
    · next hi => exact absurd (hr.pid.trans hl) (findPidIdx_eq_none.mp hi u ⟨j, hu⟩)

theorem Parked.inert (t u : Task) (hi : t.Inert u) (h : Parked tgid sig t) : Parked tgid sig u := by
  intro hp
  rw [hi.tgid, hi.shared]
  exact h (hi.pid.symm.trans hp)

/-- A signal whose generation discards `sig`: SIGCONT the stop signals, and they it. -/
def discards (gen sig : Nat) : Bool :=
  if gen = sigcont then sigdflStop.has sig else sigdflStop.has gen && sig == sigcont

section Parked

variable (h : rq.All (Parked tgid sig))
include h

end Parked

end RunQueue

namespace Kernel

section Parked

variable {k k' : Kernel} {tgid sig : Nat} (h : k.rq.All (Parked tgid sig))
include h

end Parked

end Kernel

end Leandros.Sched
