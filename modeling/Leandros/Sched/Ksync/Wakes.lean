import Leandros.Sched.Ksync.Locks

/-!
# Leandros.Sched.Ksync.Wakes

**No hand-off is lost.** A waiter that was granted a lock while it slept has its wake on the
way: somebody has still to call `kwake` for it, or its pid is in `KWAKE_DEFERRED`, or
`KWAKE_OVERFLOW` is set. And what is deferred has somebody to serve it: `KWAKE_PENDING` is
set, or a context is between the store and that flag, or between the flag and the slot.

`kwake` only tries the lock of the run queue, and leaves a note if it does not get it; the slots and
the flags are written one at a time, and every order of those writes is a run of the model.
`Stranded` is a waiter that sleeps with the lock its own already, `Coming` its wake, and `Live` the
one who serves a note. `locks_exclude_and_hand_over` reads exclusion and hand-off off the
invariant. A semaphore whose count wraps is outside of it (`semaphore_wraps`).
-/

namespace Leandros.Sched

open Function (update update_apply update_of_ne update_self)
open Context
open Place
open Channels

/-- The wakes that a context has still to do. -/
def Place.todo : Place → List Nat
  | .waking pids _ => pids
  | .deferring pid _ pids _ => pid :: pids
  | .noting pids _ => pids
  | _ => []

/-- The context will come by a slot of `KWAKE_DEFERRED`, or by `KWAKE_OVERFLOW` (`none`), or
it will set `KWAKE_PENDING`. -/
def Place.attends : Place → Option Nat → Prop
  | .noting _ _, _ => True
  | .swapped, _ => True
  | .serving, _ => True
  | .draining j, some i => j ≤ i
  | _, _ => False

namespace Channels

/-- A task sleeps in `kwait_commit`. -/
def Asleep (c : Channels) (pid : Nat) : Prop :=
  ∃ i t, c.rq.tasks.get? i = some t ∧ t.pid = pid ∧ t.parkedOn kwaitChannel = true

variable {c : Channels}

section

variable (h : c.Sound)
include h

theorem asleep_modifyPid {parked : Nat → Bool} {q p : Nat} {f : Task → Task}
    (ha : Asleep { rq := c.rq.modifyPid q f, parked } p) (hpid : ∀ t, (f t).pid = t.pid) :
    (p = q ∧ ∃ t, t.pid = q ∧ t ∈ c.rq ∧ (f t).parkedOn kwaitChannel = true) ∨
      p ≠ q ∧ c.Asleep p := by
  obtain ⟨i, t', ht', hp, hpar⟩ := ha
  rcases slot_modifyPid h.distinct ht' with ⟨t, ht, hq, rfl⟩ | ⟨ht, hq⟩
  · exact .inl ⟨by rw [← hp, hpid, hq], t, hq, ⟨i, ht⟩, hpar⟩
  · exact .inr ⟨hp ▸ hq, i, t', ht, hp, hpar⟩

theorem asleep_blockOnPortUntil {q port deadline p : Nat} {mask : BitVec 64}
    (ha : (c.blockOnPortUntil q port deadline mask).Asleep p) : p = q ∨ c.Asleep p := by
  unfold blockOnPortUntil at ha
  split at ha
  · rcases asleep_modifyPid h ha fun _ => rfl with ⟨hp, -⟩ | ⟨-, ha'⟩
    · exact .inl hp
    · exact .inr ha'
  · exact .inr ha

theorem asleep_blockOnPortCancel {q p : Nat}
    (ha : (c.blockOnPortCancel q).Asleep p) : c.Asleep p := by
  rcases asleep_modifyPid h ha fun _ => rfl with ⟨-, t, -, -, hpar⟩ | ⟨-, ha'⟩
  · simp [Task.parkedOn] at hpar
  · exact ha'

/-- `wake_kwaiter` wakes its task, and puts nobody to sleep. -/
theorem asleep_wakeKwaiter {q p : Nat} (ha : (c.wakeKwaiter q).Asleep p) : p ≠ q ∧ c.Asleep p := by
  rcases asleep_modifyPid h ha fun t => by split <;> rfl with ⟨-, t, -, -, hpar⟩ | hne
  · split at hpar
    · contradiction
    · contradiction
  · exact hne

/-- `wake_all_kwaiters` wakes everybody. -/
theorem not_asleep_wakeAllKwaiters {p : Nat} : ¬ c.wakeAllKwaiters.Asleep p := by
  rintro ⟨i, t', ht', -, hpar⟩
  obtain ⟨t, ht, rfl⟩ := slot_walk ht'
  by_cases ht₀ : t.parkedOn kwaitChannel = true
  · rw [if_pos (h.covers ht (Task.wakeScannable_of_parkedOn ht₀)), if_pos ht₀] at hpar
    contradiction
  · rw [if_neg ht₀, ite_self] at hpar
    contradiction

theorem asleep_signal {q p : Nat}
    (ha : Asleep { c with rq := c.rq.modifyPid q fun t =>
      if t.state = .blocked then { t with state := .ready } else t } p) : c.Asleep p := by
  rcases asleep_modifyPid h ha fun t => by split <;> rfl with ⟨-, t, -, -, hpar⟩ | ⟨-, ha'⟩
  · split at hpar
    · simp [Task.parkedOn] at hpar
    · next hb => simp [Task.parkedOn, hb] at hpar
  · exact ha'

end

theorem asleep_tick {now p : Nat} {tags : BitVec 64}
    (ha : (c.wakeDuePollDeadlines pollWaitChannel now tags).2.Asleep p) : c.Asleep p := by
  obtain ⟨i, t', ht', hp, hpar⟩ := ha
  obtain ⟨t, ht, rfl⟩ := slot_scan ht'
  refine ⟨i, t, ht, ?_, ?_⟩
  · split at hp
    · split at hp <;> exact hp
    · exact hp
  · split at hpar
    · split at hpar
      · simp [Task.parkedOn, Task.expired] at hpar
      · exact hpar
    · exact hpar

end Channels

namespace Ksync

/-- Somebody serves the slot, or the overflow flag. -/
def Live (s : Ksync) (o : Option Nat) : Prop := s.pending = true ∨ ∃ c, (s.place c).attends o

/-- A wake of `pid` is on the way. -/
def Coming (s : Ksync) (pid : Nat) : Prop :=
  (∃ c, pid ∈ (s.place c).todo) ∨ (∃ i, i < kwakeDeferSlots ∧ s.deferred i = pid) ∨
    s.overflow = true

/-- The task's lock was handed to it, and it sleeps in `kwait_commit`. -/
def Stranded (s : Ksync) (pid : Nat) (w : Wait) : Prop :=
  s.place (.task pid) = .waiting w ∧ w.spin = false ∧ w.granted = true ∧ w.stage = .commit ∧
    s.chan.Asleep pid

/-- What every step keeps of the wakes. -/
structure Woken (s : Ksync) : Prop where
  sound : s.chan.Sound
  slot : ∀ i, i < kwakeDeferSlots → s.deferred i ≠ 0 → s.Live (some i)
  overflow : s.overflow = true → s.Live none
  coming : ∀ p w, s.Stranded p w → s.Coming p

namespace Woken

variable {s s' : Ksync} {who : Context} {P P₀ : Place} {more : Option Nat}

/-- A step that loses no wake. -/
theorem frame (h : s.Woken) (hc : s'.chan.Sound) (hd : s'.deferred = s.deferred)
    (ho : s'.overflow = s.overflow) (hlive : ∀ o, s.Live o → s'.Live o)
    (hcoming : ∀ p, s.Coming p → s'.Coming p)
    (hst : ∀ p w, s'.Stranded p w → s.Stranded p w ∨ s'.Coming p) : s'.Woken := by
  refine ⟨hc, fun i hi hne => ?_, fun hov => hlive _ (h.overflow (ho ▸ hov)), fun p w hs => ?_⟩
  · rw [hd] at hne
    exact hlive _ (h.slot i hi hne)
  · rcases hst p w hs with hs | hs
    · exact hcoming p (h.coming p w hs)
    · exact hs

/-- A context goes on, and takes its wakes with it. -/
theorem keeps_live (hp : s'.place = update s.place who P)
    (hpend : s.pending = true → s'.pending = true)
    (h0 : s.place who = P₀) (hatt : ∀ o, P₀.attends o → P.attends o) (o : Option Nat)
    (h : s.Live o) : s'.Live o := by
  rcases h with h | ⟨c, hc⟩
  · exact .inl (hpend h)
  by_cases hw : c = who
  · subst hw
    refine .inr ⟨c, ?_⟩
    rw [hp, update_self]
    exact hatt o (h0 ▸ hc)
  · refine .inr ⟨c, ?_⟩
    rw [hp, update_of_ne hw]
    exact hc

theorem keeps_coming (hp : s'.place = update s.place who P)
    (hd : s'.deferred = s.deferred) (ho : s'.overflow = s.overflow)
    (h0 : s.place who = P₀) (htodo : ∀ q ∈ P₀.todo, q ∈ P.todo) (p : Nat) (h : s.Coming p) :
    s'.Coming p := by
  rcases h with ⟨c, hc⟩ | h | h
  · refine .inl ⟨c, ?_⟩
    rw [hp]
    by_cases hw : c = who
    · subst hw
      rw [update_self]
      exact htodo p (h0 ▸ hc)
    · rw [update_of_ne hw]
      exact hc
  · exact .inr (.inl (hd ▸ h))
  · exact .inr (.inr (ho.trans h))

/-- Who is stranded now was in its wait before. -/
theorem stranded_of_moved (hpl : s'.place = update s.place who P) (hP : ∀ w, P ≠ .waiting w)
    {p : Nat} {w : Wait} (hs : s'.Stranded p w) : Stranded { s with chan := s'.chan } p w := by
  obtain ⟨hw, hrest⟩ := hs
  rw [hpl] at hw
  rcases update_place hw with ⟨-, hw'⟩ | ⟨-, hw'⟩
  · exact absurd hw' (hP w)
  · exact ⟨hw', hrest⟩

section

-- the deferred wakes stay as they are
variable (h : s.Woken) (hd : s'.deferred = s.deferred) (hp : s'.pending = s.pending)
  (ho : s'.overflow = s.overflow)
include h hd hp ho

/-- A step that touches only the locks. -/
theorem same (hc : s'.chan = s.chan) (hpl : s'.place = s.place) : s'.Woken := by
  refine h.frame (hc ▸ h.sound) hd ho (fun o hl => ?_) (fun p hcm => ?_) fun p w hs => .inl ?_
  · unfold Live
    rw [hp, hpl]
    exact hl
  · unfold Coming
    rw [hd, ho, hpl]
    exact hcm
  · unfold Stranded at hs
    rw [hc, hpl] at hs
    exact hs

section

-- a context goes on, and nobody is granted anything
variable (hpl : s'.place = update s.place who P) (hc : s'.chan.Sound)
  (hP : ∀ w, P = .waiting w → w.granted = true → w.stage ≠ .commit)
  (hasleep : ∀ p, task p ≠ who → s'.chan.Asleep p → s.chan.Asleep p)
include hpl hc hP hasleep

theorem moved (h0 : s.place who = P₀) (htodo : ∀ q ∈ P₀.todo, q ∈ P.todo)
    (hatt : ∀ o, P₀.attends o → P.attends o) : s'.Woken := by
  refine h.frame hc hd ho (keeps_live hpl hp.trans h0 hatt) (keeps_coming hpl hd ho h0 htodo)
    fun p w hs => .inl ?_
  obtain ⟨hw, hsp, hg, hst, ha⟩ := hs
  rw [hpl] at hw
  rcases update_place hw with ⟨-, hw'⟩ | ⟨hne, hw'⟩
  · exact absurd hst (hP w hw' hg)
  · exact ⟨hw', hsp, hg, hst, hasleep p hne ha⟩

/-- An idle context, or one in a wait, goes on with its wait. -/
theorem waits (h0 : s.place who = .idle ∨ ∃ w, s.place who = .waiting w) : s'.Woken := by
  rcases h0 with h0 | ⟨w, h0⟩
  all_goals exact h.moved hd hp ho hpl hc hP hasleep h0 nofun nofun

end

/-- Nodes are granted their lock, and whoever granted it has their wakes to do. -/
theorem handOver (hlinked : Linked s.lock s.ledger s.place)
    {n : Nat} {nodes : List WaitNode} (hnodes : ∀ x ∈ nodes, x ∈ (s.lock n).waiters)
    (h0 : s.place who = .idle ∨ ∃ more, s.place who = .waking [] more)
    (hpl : s'.place = update (grantAll s.place nodes) who (.waking (wakesOf nodes) more))
    (hc : s'.chan = s.chan) : s'.Woken := by
  -- whoever else has wakes to make still has them
  have hother : ∀ c, c ≠ who → (s'.place c).todo = (s.place c).todo ∧
      (s'.place c).attends = (s.place c).attends := by
    intro c hne
    rw [hpl, update_of_ne hne, Linked.grantAll_apply]
    split
    · cases s.place c <;> exact ⟨rfl, rfl⟩
    · exact ⟨rfl, rfl⟩
  refine h.frame (hc ▸ h.sound) hd ho (fun o hl => ?_) (fun p hcm => ?_) fun p w hs => ?_
  · rcases hl with hl | ⟨c, hl⟩
    · exact .inl (hp.trans hl)
    by_cases hne : c = who
    · subst hne
      rcases h0 with h0 | ⟨_, h0⟩ <;> rw [h0] at hl <;> exact hl.elim
    · exact .inr ⟨c, (hother c hne).2 ▸ hl⟩
  · rcases hcm with ⟨c, hcm⟩ | hcm | hcm
    · by_cases hne : c = who
      · subst hne
        rcases h0 with h0 | ⟨_, h0⟩ <;> rw [h0] at hcm <;> nomatch hcm
      · exact .inl ⟨c, (hother c hne).1 ▸ hcm⟩
    · exact .inr (.inl (hd ▸ hcm))
    · exact .inr (.inr (ho.trans hcm))
  · -- who sleeps with the lock granted was granted it now, or the wake was on the way before
    obtain ⟨hw, hsp, hg, hst, ha⟩ := hs
    rw [hpl] at hw
    obtain ⟨-, w₀, hw₀, ⟨hm, rfl⟩ | ⟨-, rfl⟩⟩ :=
      Linked.handed (p := .waking (wakesOf nodes) more) nofun hw
    -- now: a granter that finds a sleeping node has its pid on the list of wakes
    · refine .inr (.inl ⟨who, ?_⟩)
      obtain ⟨x, hx, hxp⟩ := List.mem_map.mp hm
      obtain ⟨w', hw', -, -, hspin, hpid, -⟩ := hlinked.node (hnodes x hx)
      rw [hxp, hw₀] at hw'
      obtain rfl := waiting.inj hw'
      have hp : x.pid = p := by rw [hpid, hxp]; rfl
      have hp0 : p ≠ 0 := by simpa [canSleep] using hlinked.sleeps hw₀ hsp
      have hxs : x.spin = false := hspin.symm.trans hsp
      rw [hpl, update_self]
      refine List.mem_map.mpr ⟨x, List.mem_filter.mpr ⟨hx, ?_⟩, hp⟩
      simp [hxs, hp, hp0]
    · exact .inl ⟨hw₀, hsp, hg, hst, hc ▸ ha⟩

/-- A `kwake` that gets `RUN_QUEUE`. -/
theorem kwaked {pid : Nat} {pids : List Nat} (h0 : s.place who = .waking (pid :: pids) more)
    (hpl : s'.place = update s.place who (.waking pids more))
    (hc : pid = 0 ∧ s'.chan = s.chan ∨ s'.chan = s.chan.wakeKwaiter pid)
    (hpos : ∀ {p w}, s.place (.task p) = .waiting w → w.spin = false → p ≠ 0) : s'.Woken := by
  have hsound : s'.chan.Sound := by
    rcases hc with ⟨-, hc⟩ | hc <;> rw [hc]
    · exact h.sound
    · exact h.sound.wakeKwaiter pid
  have hlive := keeps_live hpl hp.trans h0 nofun
  refine ⟨hsound, fun i hi hne => hlive _ (h.slot i hi (hd ▸ hne)),
    fun hov => hlive _ (h.overflow (ho ▸ hov)), fun p w hs => ?_⟩
  obtain ⟨hw', hsp, hg, hst, ha⟩ := stranded_of_moved hpl nofun hs
  -- the pid that was just woken is awake, so this is another one
  have hpid : p ≠ pid ∧ s.chan.Asleep p := by
    rcases hc with ⟨hz, hc⟩ | hc
    · exact ⟨hz ▸ hpos hw' hsp, hc ▸ ha⟩
    · exact asleep_wakeKwaiter h.sound (hc ▸ ha)
  rcases h.coming p w ⟨hw', hsp, hg, hst, hpid.2⟩ with ⟨c, hcm⟩ | hcm | hcm
  · refine .inl ⟨c, ?_⟩
    rw [hpl]
    by_cases hcw : c = who
    · subst hcw
      rw [h0] at hcm
      rw [update_self]
      exact (List.mem_cons.mp hcm).resolve_left hpid.1
    · rw [update_of_ne hcw]
      exact hcm
  · exact .inr (.inl (hd ▸ hcm))
  · exact .inr (.inr (ho.trans hcm))

/-- The server is done. -/
theorem served {slot : Nat} (h0 : s.place who = .draining slot)
    (hslot : kwakeDeferSlots ≤ slot) (hpl : s'.place = update s.place who .idle)
    (hc : s'.chan = s.chan) : s'.Woken := by
  -- past the last slot there is nothing left that this pass had to serve
  have hkeep : ∀ o, (∀ i, o = some i → i < kwakeDeferSlots) → s.Live o → s'.Live o := by
    rintro o ho (hl | ⟨c, hl⟩)
    · exact .inl (hp.trans hl)
    refine .inr ⟨c, ?_⟩
    rw [hpl, update_of_ne]
    · exact hl
    rintro rfl
    rw [h0] at hl
    cases o with
    | none => exact hl
    | some i =>
      have hle : slot ≤ i := hl
      have := ho i rfl
      omega
  refine ⟨hc ▸ h.sound, fun i hi hne => hkeep _ (fun j hj => ?_) (h.slot i hi (hd ▸ hne)),
    fun hov => hkeep _ nofun (h.overflow (ho ▸ hov)), fun p w hs => ?_⟩
  · rw [← Option.some.inj hj]
    exact hi
  · obtain ⟨hw', hrest⟩ := stranded_of_moved hpl nofun hs
    exact keeps_coming hpl hd ho h0 nofun p (h.coming p w ⟨hw', hc ▸ hrest⟩)

/-- An idle context starts to wait. -/
theorem enqueue {w : Wait} (h0 : s.place who = .idle)
    (hpl : s'.place = update s.place who (.waiting w)) (hg : w.granted = false)
    (hc : s'.chan = s.chan) : s'.Woken := by
  refine h.waits hd hp ho hpl (hc ▸ h.sound) (fun w' hw' hg' => ?_) (fun _ _ => hc ▸ id) (.inl h0)
  rw [← waiting.inj hw', hg] at hg'
  contradiction

end

section

variable (h : s.Woken)
include h

/-- A wake is stored in a slot, or becomes an overflow. -/
theorem deferred {pid slot : Nat} {pids : List Nat}
    (h0 : s.place who = .deferring pid slot pids more)
    (hpl : s'.place = update s.place who (.noting pids more)) (hc : s'.chan = s.chan)
    (hd : (slot < kwakeDeferSlots ∧ s.deferred slot = 0 ∧ s'.overflow = s.overflow ∧
        s'.deferred = update s.deferred slot pid) ∨ s'.deferred = s.deferred ∧ s'.overflow = true)
    (hpos : ∀ {p w}, s.place (.task p) = .waiting w → w.spin = false → p ≠ 0) : s'.Woken := by
  -- until the flag is set, this context attends to every slot
  have hall : ∀ o, s'.Live o := fun o => .inr ⟨who, by rw [hpl, update_self]; trivial⟩
  refine ⟨hc ▸ h.sound, fun i _ _ => hall _, fun _ => hall _, fun p w hs => ?_⟩
  obtain ⟨hw', hsp, hg, hst, ha⟩ := stranded_of_moved hpl nofun hs
  rcases h.coming p w ⟨hw', hsp, hg, hst, hc ▸ ha⟩ with ⟨c, hcm⟩ | ⟨i, hi, hip⟩ | hcm
  -- the pid it was to wake is in the slot now, or covered by the overflow
  · by_cases hcw : c = who
    · subst hcw
      rw [h0] at hcm
      rcases List.mem_cons.mp hcm with rfl | hcm
      · rcases hd with ⟨hlt, -, -, hd⟩ | ⟨-, hov⟩
        · exact .inr (.inl ⟨slot, hlt, by rw [hd, update_self]⟩)
        · exact .inr (.inr hov)
      · exact .inl ⟨c, by rw [hpl, update_self]; exact hcm⟩
    · exact .inl ⟨c, by rw [hpl, update_of_ne hcw]; exact hcm⟩
  · rcases hd with ⟨-, hz, -, hd⟩ | ⟨hd, -⟩
    -- the slot that was filled was empty, so no other pid was lost
    · refine .inr (.inl ⟨i, hi, ?_⟩)
      rw [hd, update_of_ne, hip]
      rintro rfl
      exact hpos hw' hsp (hip.symm.trans hz)
    · exact .inr (.inl ⟨i, hi, hd ▸ hip⟩)
  · rcases hd with ⟨-, -, ho, -⟩ | ⟨-, hov⟩
    · exact .inr (.inr (ho.trans hcm))
    · exact .inr (.inr hov)

/-- The flag is set, or taken by somebody who will serve every slot. -/
theorem flagged (hpl : s'.place = update s.place who P) (hP : ∀ w, P ≠ .waiting w)
    (hc : s'.chan = s.chan) (hd : s'.deferred = s.deferred) (ho : s'.overflow = s.overflow)
    (h0 : s.place who = P₀) (htodo : ∀ q ∈ P₀.todo, q ∈ P.todo)
    (hall : s'.pending = true ∨ ∀ o, P.attends o) : s'.Woken := by
  have hlive : ∀ o, s'.Live o := by
    intro o
    rcases hall with hall | hall
    · exact .inl hall
    · refine .inr ⟨who, ?_⟩
      rw [hpl, update_self]
      exact hall o
  refine h.frame (hc ▸ h.sound) hd ho (fun o _ => hlive o) (keeps_coming hpl hd ho h0 htodo)
    fun p w hs => .inl ?_
  obtain ⟨hw', hrest⟩ := stranded_of_moved hpl hP hs
  exact ⟨hw', hc ▸ hrest⟩

/-- The server of the deferred wakes looks at the overflow flag. -/
theorem overflowed (h0 : s.place who = .serving)
    (hpl : s'.place = update s.place who (.draining 0)) (hd : s'.deferred = s.deferred)
    (hov : s'.overflow = false) (hc : s.overflow = true ∧ s'.chan = s.chan.wakeAllKwaiters ∨
      s.overflow = false ∧ s'.chan = s.chan) : s'.Woken := by
  have hlive : ∀ i, s'.Live (some i) := by
    intro i
    refine .inr ⟨who, ?_⟩
    rw [hpl, update_self]
    exact Nat.zero_le i
  refine ⟨?_, fun i _ _ => hlive i, fun he => ?_, fun p w hs => ?_⟩
  · rcases hc with ⟨-, hc⟩ | ⟨-, hc⟩ <;> rw [hc]
    · exact h.sound.wakeAllKwaiters
    · exact h.sound
  · rw [hov] at he
    contradiction
  obtain ⟨hw', hsp, hg, hst, ha⟩ := stranded_of_moved hpl nofun hs
  -- after an overflow everybody is woken
  rcases hc with ⟨-, hc⟩ | ⟨hno, hc⟩
  · rw [hc] at ha
    exact absurd ha (not_asleep_wakeAllKwaiters h.sound)
  · exact keeps_coming hpl hd (hov.trans hno.symm) h0 nofun p
      (h.coming p w ⟨hw', hsp, hg, hst, hc ▸ ha⟩)

/-- The server takes a slot. -/
theorem drained {slot : Nat} (h0 : s.place who = .draining slot)
    (hpl : s'.place = update s.place who (.draining (slot + 1)))
    (hd : s'.deferred = update s.deferred slot 0) (hp : s'.pending = s.pending)
    (ho : s'.overflow = s.overflow)
    (hc : s'.chan = if s.deferred slot = 0 then s.chan else s.chan.wakeKwaiter (s.deferred slot))
    (hpos : ∀ {p w}, s.place (.task p) = .waiting w → w.spin = false → p ≠ 0) : s'.Woken := by
  have hother : ∀ c, c ≠ who → s'.place c = s.place c := by
    intro c hne
    rw [hpl, update_of_ne hne]
  refine ⟨?_, fun i hi hne => ?_, fun hov => ?_, fun p w hs => ?_⟩
  · rw [hc]
    split
    · exact h.sound
    · exact h.sound.wakeKwaiter _
  · rw [hd, update_apply] at hne
    split at hne
    · contradiction
    -- a slot behind the one that was emptied is still ahead of the pass
    rename_i his
    rcases h.slot i hi hne with hl | ⟨c, hl⟩
    · exact .inl (hp.trans hl)
    by_cases hcw : c = who
    · subst hcw
      rw [h0] at hl
      have hle : slot ≤ i := hl
      refine .inr ⟨c, ?_⟩
      rw [hpl, update_self]
      exact Nat.lt_of_le_of_ne hle (Ne.symm his)
    · exact .inr ⟨c, hother c hcw ▸ hl⟩
  · rcases h.overflow (ho ▸ hov) with hl | ⟨c, hl⟩
    · exact .inl (hp.trans hl)
    by_cases hcw : c = who
    · subst hcw
      rw [h0] at hl
      exact hl.elim
    · exact .inr ⟨c, hother c hcw ▸ hl⟩
  · obtain ⟨hw', hsp, hg, hst, ha⟩ := stranded_of_moved hpl nofun hs
    -- the pid of the emptied slot was woken
    have hold : s.deferred slot ≠ p ∧ s.chan.Asleep p := by
      rw [hc] at ha
      split at ha
      · next hz => exact ⟨fun he => hpos hw' hsp (he.symm.trans hz), ha⟩
      · obtain ⟨hne, ha'⟩ := asleep_wakeKwaiter h.sound ha
        exact ⟨hne.symm, ha'⟩
    rcases h.coming p w ⟨hw', hsp, hg, hst, hold.2⟩ with ⟨c, hcm⟩ | ⟨i, hi, hip⟩ | hcm
    · refine .inl ⟨c, ?_⟩
      rw [hother]
      · exact hcm
      · rintro rfl
        rw [h0] at hcm
        nomatch hcm
    · refine .inr (.inl ⟨i, hi, ?_⟩)
      rw [hd, update_of_ne, hip]
      rintro rfl
      exact hold.1 hip
    · exact .inr (.inr (ho.trans hcm))

end

theorem nodes_append {l l' : List WaitNode} {nodes : List WaitNode} (h : l = nodes ++ l') :
    ∀ x ∈ nodes, x ∈ l := by
  rw [h]
  exact fun x hx => List.mem_append_left _ hx

/-- Queueing for a mutex, or taking it. -/
theorem takeMutex (h : s.Woken) {n : Nat} (h0 : s.place who = .idle) (spin : Bool)
    (deadline : Nat) (r : Bool × KRawMutex) : (s.takeMutex who n spin deadline r).Woken := by
  unfold Ksync.takeMutex
  split
  · exact h.same rfl rfl rfl rfl rfl
  · exact h.enqueue rfl rfl rfl h0 rfl rfl rfl

end Woken

/-! ### Every run -/

/-- The invariant of the sleeping locks. -/
structure Inv (s : Ksync) : Prop where
  orderly : Orderly s.lock s.ledger s.place
  woken : s.Woken

theorem Init.inv {s : Ksync} (h : s.Init) : s.Inv := by
  have hplace : ∀ {c w}, s.place c ≠ .waiting w := fun {c w} => by rw [h.place c]; nofun
  -- nobody waits at the start
  have hwaiters : ∀ n, (s.lock n).waiters = [] := by
    intro n
    have hl := h.lock n
    split at hl
    · next q hq => rw [hq]; exact hl.2.2.1
    · next m hm => rw [hm]; exact hl.2
    · next l hr => rw [hr]; exact hl.2.2
  refine ⟨⟨fun n => ?_, ?_⟩, h.sound, fun i _ hne => absurd (h.deferred i) hne, fun hov => ?_,
    fun p w hs => absurd hs.1 hplace⟩
  -- the three kinds of lock, each as it is created
  · have hl := h.lock n
    have hw := hwaiters n
    split at hl
    · next q hq =>
      rw [hq] at hw ⊢
      refine ⟨hl.1, hl.2.1, ?_, fun hne => absurd hw hne, ?_⟩
      · rw [h.holders, (h.counts n).1, (h.counts n).2, hl.2.2.2]
        simp
      · rw [show q.waiters = [] from hw]
        nofun
    · next m hm =>
      rw [hm] at hw ⊢
      refine ⟨.inl ⟨hl.1, h.holders n⟩, fun hne => absurd hw hne, ?_⟩
      rw [show m.waiters = [] from hw]
      nofun
    · next l hr =>
      rw [hr] at hw ⊢
      refine ⟨.inr ⟨hl.2.1, ?_, ?_⟩, fun hne => absurd hw hne, ?_⟩
      · rw [h.holders, hl.1]
        rfl
      · rw [h.holders]
        nofun
      · rw [show l.waiters = [] from hw]
        nofun
  · refine .of_kept (fun n => ?_) (fun n x hx => ?_) (fun c w hc => absurd hc hplace)
      (fun n q e _ he => ?_) fun n q _ => ?_
    · rw [hwaiters]
      exact List.nodup_nil
    · rw [hwaiters] at hx
      contradiction
    · rw [h.holders] at he
      contradiction
    · rw [h.holders]
      exact List.nodup_nil
  · rw [h.overflow] at hov
    contradiction

variable {s s' : Ksync}

/-- Every step that wraps no counter. -/
theorem Inv.step (h : s.Inv) {a : KsyncAction} (hok : s.ok a) (hs : s.step a = some s') :
    s'.Inv := by
  obtain ⟨ho, hw⟩ := h
  have hpos : ∀ {p w}, s.place (.task p) = .waiting w → w.spin = false → p ≠ 0 := by
    intro p w hwait hsp
    simpa [canSleep] using ho.linked.sleeps hwait hsp
  cases a with
  | tryDown who n =>
    obtain ⟨h0, he⟩ := idle_eq_some hs
    split at he <;> try contradiction
    next q hq =>
    cases he
    refine ⟨ho.relock (fair_tryDown (hq ▸ ho.fair n)) ?_ ?_ fun q' _ => ⟨⟨q, hq⟩, ?_⟩,
      hw.same rfl rfl rfl rfl rfl⟩
    · rw [hq]
      unfold KSemaphore.tryDown
      split <;> rfl
    · intro e hm
      split <;> exact hm
    · split <;> rfl
  | down who n deadline =>
    obtain ⟨h0, he⟩ := idle_eq_some hs
    split at he <;> try contradiction
    next q hq =>
    obtain ⟨hsl, rfl⟩ := guard_eq_some he
    refine ⟨ho.down hq h0 hsl deadline, ?_⟩
    split
    · exact hw.same rfl rfl rfl rfl rfl
    · exact hw.enqueue rfl rfl rfl h0 rfl rfl rfl
  | up who n =>
    obtain ⟨h0, he⟩ := idle_eq_some hs
    split at he <;> try contradiction
    next q hq =>
    cases he
    simp only [ok, hq] at hok
    refine ⟨ho.up hq h0 hok, hw.handOver rfl rfl rfl ho.linked (n := n) ?_ (.inl h0) rfl rfl⟩
    rw [hq]
    exact Woken.nodes_append (Orderly.waiters_up q)
  | tryLock who n =>
    obtain ⟨h0, he⟩ := idle_eq_some hs
    split at he <;> try contradiction
    next m hm =>
    cases he
    by_cases hfree : m.owner = 0
    · have hr : m.tryLock who = (true, { m with owner := KRawMutex.me who }) := if_pos hfree
      rw [hr, if_pos rfl]
      have hf := ho.fair n
      rw [hm] at hf
      refine ⟨ho.relock (fair_take hf hfree hok) ?_ (fun _ he => .tail _ he) (by simp),
        hw.takeMutex h0 _ _ _⟩
      rw [hm]
      rfl
    · have hr : m.tryLock who = (false, m) := if_neg hfree
      rw [hr]
      exact ⟨ho, hw⟩
  | lock who n deadline =>
    obtain ⟨h0, he⟩ := idle_eq_some hs
    split at he <;> try contradiction
    next m hm =>
    obtain ⟨hsl, rfl⟩ := guard_eq_some he
    refine ⟨ho.takeMutex hm h0 hok (fun _ => hsl) deadline ?_, hw.takeMutex h0 _ _ _⟩
    by_cases hfree : m.owner = 0
    · exact .inl ⟨hfree, if_pos hfree⟩
    · exact .inr ⟨hfree, .new who .plain, _, Linked.queued_pushBack _ _, rfl, rfl, rfl,
        rfl, if_neg hfree⟩
  | lockClass who n cls maxBypass sleep deadline =>
    obtain ⟨h0, he⟩ := idle_eq_some hs
    split at he <;> try contradiction
    next m hm =>
    obtain ⟨hsl, rfl⟩ := guard_eq_some he
    refine ⟨ho.takeMutex hm h0 hok (fun hn => hsl (by simpa using hn)) deadline ?_,
      hw.takeMutex h0 _ _ _⟩
    by_cases hfree : m.owner = 0
    · exact .inl ⟨hfree, if_pos hfree⟩
    · exact .inr ⟨hfree, _, _, Linked.queued_insertClassed _ _ maxBypass, rfl, rfl, rfl,
        rfl, if_neg hfree⟩
  | unlock who n =>
    obtain ⟨h0, he⟩ := idle_eq_some hs
    split at he <;> try contradiction
    next m hm =>
    obtain ⟨hh, rfl⟩ := guard_eq_some he
    refine ⟨ho.unlock hm h0 hh, hw.handOver rfl rfl rfl ho.linked (n := n) ?_ (.inl h0) rfl rfl⟩
    rw [hm]
    exact Woken.nodes_append (Orderly.waiters_unlock m)
  | tryAcquire who n kind =>
    obtain ⟨h0, he⟩ := idle_eq_some hs
    split at he <;> try contradiction
    next l hl =>
    obtain ⟨hk, he⟩ := Option.ite_none_left_eq_some.mp he
    have hok' : kind = .reader → l.free kind = true → l.readers + 1 < 2 ^ 32 := by
      rintro rfl
      simpa only [ok, hl] using hok
    by_cases hfree : l.free kind = true
    · have hr : l.tryAcquire kind = (true, l.give kind) := if_pos hfree
      rw [hr, if_pos rfl, Option.some_inj] at he
      subst he
      exact ⟨(ho.acquire hl h0 hk hok').1 hfree, hw.same rfl rfl rfl rfl rfl⟩
    · have hr : l.tryAcquire kind = (false, l) := if_neg hfree
      rw [hr, if_neg (by simp), Option.some_inj] at he
      exact he ▸ ⟨ho, hw⟩
  | acquire who n kind =>
    obtain ⟨h0, he⟩ := idle_eq_some hs
    split at he <;> try contradiction
    next l hl =>
    obtain ⟨hk, he⟩ := Option.ite_none_right_eq_some.mp he
    have hok' : kind = .reader → l.free kind = true → l.readers + 1 < 2 ^ 32 := by
      rintro rfl
      simpa only [ok, hl] using hok
    have hboth := ho.acquire hl h0 hk.1 hok'
    cases he
    by_cases hfree : l.free kind = true
    · have hr : l.acquire who kind = (true, l.give kind) := if_pos hfree
      rw [hr]
      exact ⟨hboth.1 hfree, hw.same rfl rfl rfl rfl rfl⟩
    · have hr : l.acquire who kind = (false, _) := if_neg hfree
      rw [hr]
      exact ⟨hboth.2 (by simpa using hfree) hk.2 noDeadline,
        hw.enqueue rfl rfl rfl h0 rfl rfl rfl⟩
  | release who n kind =>
    obtain ⟨h0, he⟩ := idle_eq_some hs
    split at he <;> try contradiction
    next l hl =>
    obtain ⟨hk, rfl⟩ := guard_eq_some he
    simp only [ok, hl] at hok
    refine ⟨ho.release hl h0 hk.1 hk.2 hok,
      hw.handOver rfl rfl rfl ho.linked (n := n) ?_ (.inl h0) rfl rfl⟩
    have hlist : (s.lock n).waiters =
        (if kind = .reader then l.readRelease else l.writeRelease).waiters := by
      rw [hl]
      split <;> rfl
    rw [hlist]
    exact Woken.nodes_append (Orderly.waiters_grantRound _)
  | grantMore =>
    simp only [Ksync.step] at hs
    simp only [ok] at hok
    split at hs <;> try contradiction
    next n hp =>
    split at hs
    · next l hl =>
      cases hs
      simp only [hp, hl] at hok
      refine ⟨ho.grantMore hl (by simp [hp]) hok,
        hw.handOver rfl rfl rfl ho.linked (n := n) ?_ (.inr ⟨_, hp⟩) rfl rfl⟩
      rw [hl]
      exact Woken.nodes_append (Orderly.waiters_grantRound l)
    · contradiction
  | prepare who =>
    obtain ⟨w, hc, he⟩ := inWait_eq_some hs
    obtain ⟨hst, rfl⟩ := guard_eq_some he
    have hsp : w.spin = false := by
      by_contra hsp
      exact (ho.linked.spins hc (by simpa using hsp)).1 hst.1
    refine ⟨⟨ho.fair, ho.linked.stage hc (fun _ => by rw [hst.1]; rfl) (by simp)
      fun _ => ⟨by simp, by simp⟩⟩, hw.waits rfl rfl rfl rfl
      (hw.sound.blockOnPortUntil _ _ _ _) (fun w' hw' _ => ?_) (fun p hne ha => ?_) (.inr ⟨w, hc⟩)⟩
    · rw [← waiting.inj hw']
      simp
    rcases asleep_blockOnPortUntil hw.sound ha with hp | ha
    · -- Only a task sleeps, so the one that prepares is not another one's pid.
      have hsl := ho.linked.sleeps hc hsp
      cases who with
      | task => exact absurd (congrArg task hp) hne
      | atomic => contradiction
    · exact ha
  | check =>
    obtain ⟨w, hc, he⟩ := inWait_eq_some hs
    obtain ⟨hst, he⟩ := Option.ite_none_right_eq_some.mp he
    refine ⟨ho.check hc hst.1 hs, ?_⟩
    cases he
    have hout : ∀ r w', waiting { w with stage := if w.spin then .leave r else .cancel r } =
        .waiting w' → w'.granted = true → w'.stage ≠ .commit := by
      intro r w' hw' _
      rw [← waiting.inj hw']
      split <;> simp
    split
    · exact hw.waits rfl rfl rfl rfl hw.sound (hout true) (fun _ _ => id) (.inr ⟨w, hc⟩)
    · next hg =>
      split
      · exact hw.waits rfl rfl rfl rfl hw.sound (hout false) (fun _ _ => id) (.inr ⟨w, hc⟩)
      split
      · exact hw
      refine hw.waits rfl rfl rfl rfl hw.sound (fun w' hw' hg' => ?_) (fun _ _ => id) (.inr ⟨w, hc⟩)
      rw [← waiting.inj hw'] at hg'
      exact absurd hg' hg
  | cancel =>
    obtain ⟨w, hc, he⟩ := inWait_eq_some hs
    split at he <;> try contradiction
    next r hst =>
    obtain ⟨-, rfl⟩ := guard_eq_some he
    refine ⟨⟨ho.fair, ho.linked.stage hc (fun _ => by rw [hst]; rfl) (fun r' hr' => ?_)
      fun _ => ⟨by simp, by simp⟩⟩, hw.waits rfl rfl rfl rfl
      (hw.sound.blockOnPortCancel _) (fun w' hw' _ => ?_)
      (fun p _ ha => asleep_blockOnPortCancel hw.sound ha) (.inr ⟨w, hc⟩)⟩
    · obtain rfl : r = r' := by simpa using hr'
      exact ho.linked.result hc (.inl hst)
    · rw [← waiting.inj hw']
      simp
  | leave =>
    refine ⟨ho.leave hs, ?_⟩
    obtain ⟨w, hc, he⟩ := inWait_eq_some hs
    split at he <;> try contradiction
    split at he
    all_goals
      cases he
      exact hw.waits rfl rfl rfl rfl hw.sound (by simp) (fun _ _ => id) (.inr ⟨w, hc⟩)
  | resume =>
    obtain ⟨w, hc, he⟩ := inWait_eq_some hs
    obtain ⟨hst, rfl⟩ := guard_eq_some he
    refine ⟨⟨ho.fair, ho.linked.stage hc (fun _ => by rw [hst.1]; rfl) (by simp)
      fun hsp => absurd hst.1 (ho.linked.spins hc hsp).2⟩,
      hw.waits rfl rfl rfl rfl hw.sound (fun w' hw' _ => ?_) (fun _ _ => id) (.inr ⟨w, hc⟩)⟩
    rw [← waiting.inj hw']
    simp
  | wakeOther =>
    obtain ⟨h0, he⟩ := idle_eq_some hs
    cases he
    exact ⟨ho.goTo (Orderly.idle_ne h0) (by simp),
      hw.waits rfl rfl rfl rfl hw.sound (by simp) (fun _ _ => id) (.inl h0)⟩
  | kwake who =>
    simp only [Ksync.step] at hs
    split at hs <;> try contradiction
    next pid pids more hp =>
    have h0 : ∀ w, s.place who ≠ .waiting w := by simp [hp]
    split at hs
    · next hz =>
      cases hs
      exact ⟨ho.goTo h0 (by simp), hw.kwaked rfl rfl rfl hp rfl (.inl ⟨hz, rfl⟩) hpos⟩
    split at hs
    · obtain ⟨-, rfl⟩ := guard_eq_some hs
      exact ⟨ho.goTo h0 (by simp), hw.kwaked rfl rfl rfl hp rfl (.inr rfl) hpos⟩
    · cases hs
      exact ⟨ho.goTo h0 (by simp), hw.moved rfl rfl rfl rfl hw.sound (by simp) (fun _ _ => id)
        hp (fun _ => id) fun _ => id⟩
  | defer who =>
    simp only [Ksync.step] at hs
    split at hs <;> try contradiction
    next pid slot pids more hp =>
    have h0 : ∀ w, s.place who ≠ .waiting w := by simp [hp]
    split at hs
    · next hlt =>
      split at hs
      · next hz =>
        cases hs
        exact ⟨ho.goTo h0 (by simp), hw.deferred hp rfl rfl (.inl ⟨hlt, hz, rfl, rfl⟩) hpos⟩
      · cases hs
        exact ⟨ho.goTo h0 (by simp), hw.moved rfl rfl rfl rfl hw.sound (by simp) (fun _ _ => id)
          hp (fun _ => id) fun _ => id⟩
    · cases hs
      exact ⟨ho.goTo h0 (by simp), hw.deferred hp rfl rfl (.inr ⟨rfl, rfl⟩) hpos⟩
  | note =>
    simp only [Ksync.step] at hs
    split at hs <;> try contradiction
    next pids more hp =>
    cases hs
    exact ⟨ho.goTo (by simp [hp]) (by simp),
      hw.flagged rfl (by simp) rfl rfl rfl hp (fun _ => id) (.inl rfl)⟩
  | wakesDone =>
    obtain ⟨hp, rfl⟩ := guard_eq_some hs
    exact ⟨ho.goTo (by simp [hp]) (by simp),
      hw.moved rfl rfl rfl rfl hw.sound (by simp) (fun _ _ => id) hp (fun _ => id) fun _ => id⟩
  | serviceSwap =>
    obtain ⟨h0, he⟩ := idle_eq_some hs
    split at he
    · cases he
      exact ⟨ho.goTo (Orderly.idle_ne h0) (by simp),
        hw.flagged rfl (by simp) rfl rfl rfl h0 (by simp [todo]) (.inr fun _ => trivial)⟩
    · rw [Option.some_inj] at he
      exact he ▸ ⟨ho, hw⟩
  | serviceLock who =>
    obtain ⟨hp, hs⟩ := Option.ite_none_right_eq_some.mp hs
    have h0 : ∀ w, s.place who ≠ .waiting w := by simp [hp]
    split at hs
    · obtain ⟨-, rfl⟩ := guard_eq_some hs
      exact ⟨ho.goTo h0 (by simp),
        hw.flagged rfl (by simp) rfl rfl rfl hp (by simp [todo]) (.inr fun _ => trivial)⟩
    · cases hs
      exact ⟨ho.goTo h0 (by simp),
        hw.flagged rfl (by simp) rfl rfl rfl hp (by simp [todo]) (.inl rfl)⟩
  | serviceOverflow who =>
    obtain ⟨hp, rfl⟩ := guard_eq_some hs
    have h0 : ∀ w, s.place who ≠ .waiting w := by simp [hp]
    cases hov : s.overflow with
    | true =>
      exact ⟨ho.goTo h0 (by simp), hw.overflowed hp rfl rfl rfl (.inl ⟨hov, rfl⟩)⟩
    | false =>
      exact ⟨ho.goTo h0 (by simp), hw.overflowed hp rfl rfl hov (.inr ⟨hov, rfl⟩)⟩
  | drain who =>
    simp only [Ksync.step] at hs
    split at hs <;> try contradiction
    next slot hp =>
    have h0 : ∀ w, s.place who ≠ .waiting w := by simp [hp]
    split at hs
    · cases hs
      exact ⟨ho.goTo h0 (by simp), hw.drained hp rfl rfl rfl rfl rfl hpos⟩
    · next hge =>
      cases hs
      exact ⟨ho.goTo h0 (by simp), hw.served rfl rfl rfl hp (Nat.le_of_not_lt hge) rfl rfl⟩
  | signal pid =>
    obtain ⟨-, rfl⟩ := guard_eq_some hs
    refine ⟨ho, hw.frame (hw.sound.modifyPid pid (fun t => ?_) (fun _ => id)
      fun _ t _ _ hwake => .inl ?_) rfl rfl (fun _ => id) (fun _ => id)
      fun p w hst => .inl ⟨hst.1, hst.2.1, hst.2.2.1, hst.2.2.2.1,
        asleep_signal hw.sound hst.2.2.2.2⟩⟩
    · split <;> rfl
    · split at hwake
      · simp [Task.wakeScannable] at hwake
      · exact hwake
  | tick =>
    obtain ⟨-, rfl⟩ := guard_eq_some hs
    exact ⟨ho, hw.frame (hw.sound.wakeDuePollDeadlines _ _ _) rfl rfl (fun _ => id) (fun _ => id)
      fun p w hst => .inl ⟨hst.1, hst.2.1, hst.2.2.1, hst.2.2.2.1, asleep_tick hst.2.2.2.2⟩⟩

theorem Inv.reachable (h : Reachable Init ok Ksync.step s) : s.Inv :=
  h.invariant (fun _ => Init.inv) fun _ _ _ hI hok hs => hI.step hok hs

/-- **The sleeping locks.** In every run that wraps no counter: a mutex has at most one holder,
whom its owner field names; a writer holds a reader/writer lock alone; the units of a
semaphore are all accounted for, those that were granted but not yet reported by the waiters
that have them; whoever is queued waits for a lock that is held, or for a count of 0; a waiter
that was handed the lock finds that it was; and if it sleeps, a wake is on the way to it. -/
theorem locks_exclude_and_hand_over {s : Ksync} (h : Reachable Init ok step s) :
    (∀ n m, s.lock n = .mutex m → (m.owner = 0 ∧ (s.ledger n).holders = [] ∨
        ∃ c, m.owner = c.pid + 1 ∧ (s.ledger n).holders = [(c, .plain)]) ∧
      (m.waiters ≠ [] → m.owner ≠ 0)) ∧ (∀ n l, s.lock n = .rwlock l →
      (l.writer = true ∧ l.readers = 0 ∧ (∃ c, (s.ledger n).holders = [(c, .writer)]) ∨
        l.writer = false ∧ l.readers = (s.ledger n).holders.length ∧
          ∀ e ∈ (s.ledger n).holders, e.2 = .reader) ∧
      (l.waiters ≠ [] → l.writer = true ∨ l.readers ≠ 0)) ∧ (∀ n q, s.lock n = .sema q →
      (s.ledger n).initial + (s.ledger n).ups =
        q.count + (s.ledger n).downs + (s.ledger n).holders.length ∧
      ((s.ledger n).holders.Nodup ∧ ∀ c k, (c, k) ∈ (s.ledger n).holders ↔
        k = .plain ∧ ∃ w, s.place c = .waiting w ∧ w.lock = n ∧ w.granted = true) ∧
      (q.waiters ≠ [] → q.count = 0)) ∧ (∀ c w, s.place c = .waiting w →
      (∀ r, w.stage = .cancel r ∨ w.stage = .leave r → w.granted = r) ∧
      (w.granted = true → (c, w.kind) ∈ (s.ledger w.lock).holders) ∧
      (w.granted = false → w.stage.inside = true → c ∈ (s.lock w.lock).waiters.map WaitNode.who)) ∧
    ∀ p w, s.place (.task p) = .waiting w → w.spin = false → w.granted = true →
      w.stage = .commit → s.chan.Asleep p → (∃ c, p ∈ (s.place c).todo) ∨
        (∃ i, i < kwakeDeferSlots ∧ s.deferred i = p ∧ s.Live (some i)) ∨
        s.overflow = true ∧ s.Live none := by
  have hI := Inv.reachable h
  have hfair := hI.orderly.fair
  have hlinked := hI.orderly.linked
  refine ⟨fun n m hm => ?_, fun n l hl => ?_, fun n q hq => ?_, fun c w hw => ?_,
    fun p w hw hsp hg hst ha => ?_⟩
  · have hf := hfair n
    rw [hm] at hf
    exact ⟨hf.1, hf.2.1⟩
  · have hf := hfair n
    rw [hl] at hf
    exact ⟨hf.1, hf.2.1⟩
  · have hf := hfair n
    rw [hq] at hf
    refine ⟨hf.2.2.1, ⟨hlinked.once hq, fun c k => ⟨hlinked.units hq, ?_⟩⟩, hf.2.2.2.1⟩
    -- a granted wait of a semaphore holds a unit of the only kind there is
    rintro ⟨rfl, w, hw, rfl, hg⟩
    have hm := hlinked.granted hw hg
    have hk : w.kind = .plain := (hlinked.units hq hm).1
    rwa [hk] at hm
  · exact ⟨fun r => hlinked.result hw, hlinked.granted hw, hlinked.wait hw⟩
  -- the wake is on somebody's list, or in a slot, or covered by the overflow, and that is attended to
  · rcases hI.woken.coming p w ⟨hw, hsp, hg, hst, ha⟩ with hc | ⟨i, hi, hip⟩ | hov
    · exact .inl hc
    · have hp0 : p ≠ 0 := by simpa [canSleep] using hlinked.sleeps hw hsp
      exact .inr (.inl ⟨i, hi, hip, hI.woken.slot i hi (hip ▸ hp0)⟩)
    · exact .inr (.inr ⟨hov, hI.woken.overflow hov⟩)

/-- Two tasks, a semaphore and mutexes. -/
def quiet (count : Int) : Ksync where
  chan :=
    { rq :=
        { tasks := (OrdMap.empty.insert 0 { Task.newKernel 5 with state := .running }).insert 1
            { Task.newKernel 6 with state := .running }
          len := 2
          nproc := 2 }
      parked := fun _ => false }
  rqHeld := false
  deferred := fun _ => 0
  pending := false
  overflow := false
  klocks := fun _ => 0
  lock := fun n => if n = 0 then .sema ⟨count, []⟩ else .mutex ⟨0, []⟩
  ledger := fun _ => ⟨[], count, 0, 0⟩
  place := fun _ => .idle

theorem init_quiet (count : Int) (h0 : 0 ≤ count) (h : count < 2 ^ 63) : (quiet count).Init := by
  have hawake : ∀ t ∈ (quiet count).chan.rq, t.state ≠ .blocked := fun t ht =>
    (show ∀ t ∈ (quiet 0).chan.rq.slots, t.state ≠ .blocked by decide +kernel) t
      (RunQueue.mem_slots.mpr ht)
  have hpids : ((quiet 0).chan.rq.slots.map Task.pid).Nodup := by decide +kernel
  refine ⟨⟨RunQueue.distinct_of_slots hpids, fun {i t} ht hw => ?_⟩, fun _ => rfl, rfl,
    fun _ => rfl, rfl, rfl, fun _ => rfl, fun _ => ⟨rfl, rfl⟩, fun n => ?_⟩
  · simp only [Task.wakeScannable, Bool.and_eq_true, beq_iff_eq] at hw
    exact absurd hw.1 (hawake t ⟨i, ht⟩)
  by_cases hn : n = 0
  · simp only [quiet, if_pos hn]
    exact ⟨h0, h, trivial, trivial⟩
  · simp only [quiet, if_neg hn]
    exact ⟨trivial, trivial⟩

/-- Task 6 sleeps for a mutex that task 5 hands to it, and the wake is deferred. -/
theorem locks_exclude_and_hand_over_deferred :
    ∃ s, Reachable Init ok step s ∧ (s.ledger 1).holders = [(.task 6, .plain)] ∧ s.chan.Asleep 6 ∧
      ((∃ c, 6 ∈ (s.place c).todo) ∨
        (∃ i, i < kwakeDeferSlots ∧ s.deferred i = 6 ∧ s.Live (some i)) ∨
        s.overflow = true ∧ s.Live none) := by
  -- task 5 locks, task 6 waits for it and goes to sleep, and the wake finds the run queue locked
  have hrun : ∃ s, Reachable Init ok step s ∧ (s.ledger 1).holders = [(.task 6, .plain)] ∧
      (s.chan.rq.findPid 6).any (·.parkedOn kwaitChannel) = true ∧
      s.place (.task 6) = .waiting ⟨1, .plain, false, noDeadline, .commit, true⟩ :=
    ⟨_, (((((((Reachable.start (init_quiet 1 (by decide) (by decide))).next
      (a := .lock (.task 5) 1 noDeadline) (show 5 + 1 < 2 ^ 32 by decide) rfl).next
      (a := .lock (.task 6) 1 noDeadline) (show 6 + 1 < 2 ^ 32 by decide) rfl).next
      (a := .prepare (.task 6)) trivial rfl).next
      (a := .check (.task 6) 0) trivial rfl).next
      (a := .unlock (.task 5) 1) trivial rfl).next
      (a := .kwake (.task 5) false) trivial rfl).next
      (a := .defer (.task 5)) trivial rfl, by decide +kernel, by decide +kernel, by decide +kernel⟩
  obtain ⟨s, hrun, hholds, hpar, hw⟩ := hrun
  have hasleep : s.chan.Asleep 6 := by
    cases ht : s.chan.rq.findPid 6 with
    | none =>
      rw [ht] at hpar
      contradiction
    | some t =>
      rw [ht] at hpar
      obtain ⟨⟨i, hi⟩, hpid⟩ := RunQueue.findPid_eq_some ht
      exact ⟨i, t, hi, hpid, hpar⟩
  exact ⟨s, hrun, hholds, hasleep,
    (locks_exclude_and_hand_over hrun).2.2.2.2 6 _ hw rfl rfl rfl hasleep⟩

/-- An `up` of a semaphore that holds `i64::MAX` units. -/
theorem semaphore_wraps :
    ∃ s q, Reachable Init (fun _ _ => True) step s ∧ s.lock 0 = .sema q ∧ q.count < 0 ∧
      (s.ledger 0).initial + (s.ledger 0).ups ≠
        q.count + (s.ledger 0).downs + (s.ledger 0).holders.length := by
  have hrun : Reachable Init (fun _ _ => True) step _ :=
    (Reachable.start (init_quiet (2 ^ 63 - 1) (by decide) (by decide))).next
      (a := .up (.task 5) 0) trivial rfl
  exact ⟨_, _, hrun, rfl, by decide +kernel, by decide +kernel⟩

end Ksync

end Leandros.Sched
