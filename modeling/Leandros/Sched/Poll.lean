import Leandros.Sched.Parking

/-!
# Leandros.Sched.Poll

**Waiting in `poll`** (`sched/src/lib.rs`). All pollers wait on one channel. A poller says
what it waits for by a mask, one hash bit for each object, then looks at its objects once
more, and only then goes to sleep; a producer makes its object ready and then wakes those
whose mask has the object's bit, or leaves the bit in `POLL_WAKE_PENDING` for the next tick
to pay. `epoll_ctl` adds bits to the masks of tasks that are asleep already.

A run keeps track, for each poller, of the objects that became ready after it had looked
(`Poller.late`).
-/

namespace Leandros.Sched

open Function (update update_apply update_idem update_of_ne update_self)
open Leandros.Sched.Task
open Channels

/-- The hash of `poll_tag`. -/
def pollHash (cls index : BitVec 32) : BitVec 64 :=
  let x := (cls.setWidth 64 <<< 32) ||| index.setWidth 64
  let x := x ^^^ (x >>> 33)
  let x := x * 0xff51afd7ed558ccd#64
  let x := x ^^^ (x >>> 33)
  let x := x * 0xc4ceb9fe1a85ec53#64
  x ^^^ (x >>> 33)

/-- `poll_tag`. -/
def pollTag (cls index : BitVec 32) : BitVec 64 :=
  1#64 <<< (pollHash cls index &&& 63#64).toNat

/-- Something to wait for: a class of `poll_class` and an index in it. -/
structure PollObject where
  cls : BitVec 32
  index : BitVec 32
  deriving DecidableEq

def PollObject.tag (o : PollObject) : BitVec 64 := pollTag o.cls o.index

/-- A tag is one bit. -/
theorem PollObject.exists_tag_eq (o : PollObject) : ∃ n < 64, o.tag = BitVec.twoPow 64 n := by
  refine ⟨(pollHash o.cls o.index &&& 63#64).toNat, ?_, ?_⟩
  · exact Nat.lt_of_le_of_lt Nat.and_le_right (by decide)
  · rw [tag, pollTag, BitVec.twoPow_eq]

/-- A set of bits that has an object's meets every mask that has it. -/
theorem PollObject.meets {o : PollObject} {x mask : BitVec 64} (hx : x &&& o.tag ≠ 0)
    (hm : mask &&& o.tag ≠ 0) : mask &&& x ≠ 0 := by
  obtain ⟨n, hn, ht⟩ := o.exists_tag_eq
  rw [ht, BitVec.and_twoPow] at hx hm
  have hbit : (mask &&& x).getLsbD n = true := by
    rw [BitVec.getLsbD_and, Bool.and_eq_true]
    exact ⟨by_contra fun hno => hm (if_neg hno), by_contra fun hno => hx (if_neg hno)⟩
  intro h0
  rw [h0, BitVec.ofNat_eq_ofNat, BitVec.getLsbD_zero] at hbit
  contradiction

theorem PollObject.tag_ne_zero (o : PollObject) : o.tag ≠ 0 := by
  obtain ⟨n, hn, ht⟩ := o.exists_tag_eq
  rw [ht]
  intro h0
  have hbit : (BitVec.twoPow 64 n).getLsbD n = true := by simp [hn]
  rw [h0, BitVec.ofNat_eq_ofNat, BitVec.getLsbD_zero] at hbit
  contradiction

theorem or_and_ne_zero {x y t : BitVec 64} : (x ||| y) &&& t ≠ 0 ↔ x &&& t ≠ 0 ∨ y &&& t ≠ 0 := by
  rw [BitVec.and_or_distrib_right, Ne, BitVec.ofNat_eq_ofNat, BitVec.or_eq_zero_iff, not_and_or]

theorem PollObject.covers_ne_zero {o : PollObject} {x : BitVec 64} (h : x &&& o.tag = o.tag) :
    x &&& o.tag ≠ 0 := by
  rw [h]
  exact o.tag_ne_zero

/-- Where a thread is in a park. -/
inductive PollStage
  | out
  /-- The park is published, its deadline not yet. -/
  | registering (deadline : Nat)
  /-- Before `block_on_poll_commit` or `block_on_poll_cancel`. -/
  | probing
  | committed
  deriving DecidableEq

/-- A thread and its current park. -/
structure Poller where
  stage : PollStage
  /-- The park is on the poll channel. -/
  polls : Bool
  /-- The objects it has looked at since it published the park. -/
  probed : PollObject → Bool
  /-- One of them was ready. -/
  found : Bool
  /-- The objects that became ready after it had looked. -/
  late : PollObject → Bool

/-- The poll channel, those who wait on it and those who wake them. -/
structure Poll where
  chan : Channels
  /-- `NEXT_POLL_DEADLINE`. -/
  next : Nat
  /-- `POLL_WAKE_PENDING`. -/
  pending : BitVec 64
  ready : PollObject → Bool
  poller : Nat → Poller
  /-- Who has made an object ready and has not yet woken anybody for it. -/
  producer : Nat → Option PollObject
  /-- What the tick of each CPU has taken from `pending` and not yet paid. -/
  taken : Nat → BitVec 64

inductive PollAction
  /-- `block_on_poll_prepare_masked`, under the lock. -/
  | prepare (pid deadline : Nat) (mask : BitVec 64)
  /-- `kwait_prepare`, under the lock. -/
  | kwaitPrepare (pid deadline : Nat)
  /-- The commit of a futex wait. -/
  | futexWait (pid uaddr : Nat) (deadline : Option Nat)
  /-- `register_poll_deadline`. -/
  | register (pid : Nat)
  | probe (pid : Nat) (o : PollObject)
  | cancel (pid : Nat)
  | commit (pid : Nat)
  /-- The yield of a commit returns. -/
  | resume (pid : Nat)
  /-- A signal makes a blocked task runnable. -/
  | signal (pid : Nat)
  | wakeKwaiter (pid : Nat)
  | publish (who : Nat) (o : PollObject)
  | consume (o : PollObject)
  /-- `wake_poll_tagged`, or `try_wake_poll_tagged` that gets the lock. -/
  | wake (who : Nat) (tag : BitVec 64)
  /-- `request_poll_wake_tagged`. -/
  | request (who : Nat) (tag : BitVec 64)
  /-- `wake_poll`, for whatever reason. -/
  | broadcast
  /-- `service_deferred_poll_wake`, the swap. -/
  | take (cpu : Nat)
  /-- `service_deferred_poll_wake`, the rest; `locked`: it gets the lock. -/
  | pay (cpu : Nat) (locked : Bool)
  /-- `widen_poll_masks`. -/
  | widen (matchTag add : BitVec 64)
  /-- `service_poll_deadlines` that gets the lock. -/
  | tick (now : Nat) (timerfdTags : BitVec 64)

namespace Poll

/-- A thread enters a park. -/
def enter (s : Poll) (pid deadline : Nat) (polls : Bool) : Nat → Poller :=
  update s.poller pid
    { stage := if deadline = noDeadline then .probing else .registering deadline
      polls := polls
      probed := fun _ => false
      found := false
      late := fun _ => false }

/-- A thread goes on. -/
def goOn (s : Poll) (pid : Nat) (stage : PollStage) : Nat → Poller :=
  update s.poller pid { s.poller pid with stage := stage }

/-- Those who have looked at `o` will not see that it is ready now. -/
def miss (s : Poll) (o : PollObject) : Nat → Poller := fun pid =>
  let w := s.poller pid
  if w.probed o || w.stage = .committed then { w with late := update w.late o true } else w

/-- `wake_poll_tagged`. -/
def wakePollTagged (s : Poll) (tag : BitVec 64) : Poll :=
  { s with chan := s.chan.unblockPortTagged pollWaitChannel tag }

/-- The step an action takes, if it can be taken. -/
def step (s : Poll) : PollAction → Option Poll
  | .prepare pid deadline mask =>
    if (s.poller pid).stage = .out then
      some
        { s with
          chan := s.chan.blockOnPortUntil pid pollWaitChannel deadline mask
          poller := s.enter pid deadline true }
    else none
  | .kwaitPrepare pid deadline =>
    if (s.poller pid).stage = .out then
      some
        { s with
          chan := s.chan.blockOnPortUntil pid kwaitChannel deadline 0
          poller := s.enter pid deadline false }
    else none
  | .futexWait pid uaddr deadline =>
    if (s.poller pid).stage = .out ∧ uaddr ≠ 0 then
      some
        { s with
          chan := s.chan.blockOnFutex pid uaddr deadline
          poller := s.enter pid (deadline.getD noDeadline) false }
    else none
  | .register pid =>
    match (s.poller pid).stage with
    | .registering deadline =>
      some { s with next := min s.next deadline, poller := s.goOn pid .probing }
    | _ => none
  | .probe pid o =>
    if (s.poller pid).stage = .probing then
      some
        { s with
          poller := update s.poller pid
            { s.poller pid with
              probed := update (s.poller pid).probed o true
              found := (s.poller pid).found || s.ready o } }
    else none
  | .cancel pid =>
    if (s.poller pid).stage = .probing then
      some { s with chan := s.chan.blockOnPortCancel pid, poller := s.goOn pid .out }
    else none
  | .commit pid =>
    if (s.poller pid).stage = .probing ∧ (s.poller pid).found = false then
      some { s with poller := s.goOn pid .committed }
    else none
  | .resume pid =>
    if (s.poller pid).stage = .committed ∧
        (s.chan.rq.findPid pid).all fun t => t.state != .blocked then
      some { s with poller := s.goOn pid .out }
    else none
  | .signal pid =>
    some
      { s with
        chan :=
          { s.chan with
            rq := s.chan.rq.modifyPid pid fun t =>
              if t.state = .blocked then { t with state := .ready } else t } }
  | .wakeKwaiter pid => some { s with chan := s.chan.wakeKwaiter pid }
  | .publish who o =>
    if s.producer who = none then
      some
        { s with
          ready := update s.ready o true
          producer := update s.producer who (some o)
          poller := s.miss o }
    else none
  | .consume o => some { s with ready := update s.ready o false }
  | .wake who tag =>
    match s.producer who with
    | some o =>
      -- The tag of the object, alone or with others.
      if tag &&& o.tag = o.tag then
        some { s.wakePollTagged tag with producer := update s.producer who none }
      else none
    | none => none
  | .request who tag =>
    match s.producer who with
    | some o =>
      if tag &&& o.tag = o.tag then
        some
          { s with
            pending := s.pending ||| tag
            producer := update s.producer who none }
      else none
    | none => none
  | .broadcast => some (s.wakePollTagged pollTagAll)
  | .take cpu =>
    if s.taken cpu = 0 then
      some { s with taken := update s.taken cpu s.pending, pending := 0 }
    else none
  | .pay cpu locked =>
    if locked then
      some { s.wakePollTagged (s.taken cpu) with taken := update s.taken cpu 0 }
    else
      some
        { s with
          pending := s.pending ||| s.taken cpu
          taken := update s.taken cpu 0 }
  | .widen matchTag add =>
    if add = 0 then none
    else some { s with chan := s.chan.widenPortMasks pollWaitChannel matchTag add }
  | .tick now timerfdTags =>
    let r := s.chan.wakeDuePollDeadlines pollWaitChannel now timerfdTags
    some { s with chan := r.2, next := r.1 }

/-- Somebody is going to wake for `o`: its producer, the next tick, or one under way. -/
def Covered (s : Poll) (o : PollObject) : Prop :=
  (∃ who, s.producer who = some o) ∨ s.pending &&& o.tag ≠ 0 ∨ ∃ cpu, s.taken cpu &&& o.tag ≠ 0

/-- A mask is not widened by an object that the poller has missed already and that nobody is
going to wake for. -/
def ok (s : Poll) : PollAction → Prop
  | .widen matchTag add =>
    ∀ t ∈ s.chan.rq, t.parkedOn pollWaitChannel = true → t.pollMask &&& matchTag ≠ 0 →
      ∀ o, (s.poller t.pid).late o = true → add &&& o.tag ≠ 0 → t.pollMask &&& o.tag = 0 →
        s.Covered o
  | _ => True

/-- Nobody is parked. -/
structure Init (s : Poll) : Prop where
  sound : s.chan.Sound
  awake : ∀ t ∈ s.chan.rq, t.state ≠ .blocked
  out : ∀ pid, (s.poller pid).stage = .out

section

variable {s : Poll} {pid q : Nat} {st : PollStage}

theorem goOn_self : s.goOn pid st pid = { s.poller pid with stage := st } :=
  update_self _ _ _

theorem goOn_other (h : q ≠ pid) : s.goOn pid st q = s.poller q := update_of_ne h _ _

theorem update_field {α : Type} {w : Poller} (f : Poller → α) (hw : f w = f (s.poller pid)) :
    f (update s.poller pid w q) = f (s.poller q) := by
  by_cases h : q = pid
  · subst h
    rw [update_self, hw]
  · rw [update_of_ne h]

end

/-! ### Channels under wakes -/

/-- Every task is as it was, or was blocked and is ready. -/
structure Wakes (c c' : Channels) : Prop where
  sound : c'.Sound
  slot : ∀ {i t'}, c'.rq.tasks.get? i = some t' → ∃ t, c.rq.tasks.get? i = some t ∧
    (t' = t ∨ t'.pid = t.pid ∧ t.state = .blocked ∧ t'.state = .ready ∧
      (t'.pollDeadline = t.pollDeadline ∨ t'.pollDeadline = noDeadline))

variable {c : Channels}

theorem wakes_unblockPortTagged (h : c.Sound) (port : Nat) (tag : BitVec 64) :
    Wakes c (c.unblockPortTagged port tag) := by
  refine ⟨h.unblockPortTagged port tag, fun {i t'} ht' => ?_⟩
  rcases slot_unblockPortTagged h ht' with ⟨ht, -⟩ | ⟨t, ht, hp, rfl⟩
  · exact ⟨t', ht, .inl rfl⟩
  have hb : t.state = .blocked := by
    simp only [parkedOn, Bool.and_eq_true, beq_iff_eq] at hp
    exact hp.2
  exact ⟨t, ht, .inr ⟨rfl, hb, rfl, .inr rfl⟩⟩

theorem wakes_wakeKwaiter (h : c.Sound) (pid : Nat) : Wakes c (c.wakeKwaiter pid) := by
  refine ⟨h.wakeKwaiter pid, fun {i t'} ht' => ?_⟩
  rcases slot_modifyPid h.distinct ht' with ⟨t, ht, -, rfl⟩ | ⟨ht, -⟩
  · refine ⟨t, ht, ?_⟩
    split
    · next hp =>
      simp only [parkedOn, Bool.and_eq_true, beq_iff_eq] at hp
      exact .inr ⟨rfl, hp.2, rfl, .inr rfl⟩
    · exact .inl rfl
  · exact ⟨t', ht, .inl rfl⟩

theorem wakes_signal (h : c.Sound) (pid : Nat) :
    Wakes c { c with rq := c.rq.modifyPid pid fun t =>
      if t.state = .blocked then { t with state := .ready } else t } := by
  refine ⟨h.modifyPid pid (fun t => ?_) (fun _ => id) fun _ t _ _ hw => .inl ?_,
    fun {i t'} ht' => ?_⟩
  · split <;> rfl
  · split at hw
    · contradiction
    · exact hw
  · rcases slot_modifyPid h.distinct ht' with ⟨t, ht, -, rfl⟩ | ⟨ht, -⟩
    · refine ⟨t, ht, ?_⟩
      split
      · next hb => exact .inr ⟨rfl, hb, rfl, .inl rfl⟩
      · exact .inl rfl
    · exact ⟨t', ht, .inl rfl⟩

theorem wakes_tick (h : c.Sound) (now : Nat) (tags : BitVec 64) :
    Wakes c (c.wakeDuePollDeadlines pollWaitChannel now tags).2 := by
  refine ⟨h.wakeDuePollDeadlines _ now tags, fun {i t'} ht' => ?_⟩
  obtain ⟨t, ht, rfl⟩ := slot_scan ht'
  refine ⟨t, ht, ?_⟩
  split
  · next hw =>
    split
    · simp only [Bool.and_eq_true, wakeScannable, beq_iff_eq] at hw
      exact .inr ⟨rfl, hw.2.1, rfl, .inr rfl⟩
    · exact .inl rfl
  · exact .inl rfl

/-! ### The invariant -/

/-- The invariant of a run. -/
structure Inv (s : Poll) : Prop where
  sound : s.chan.Sound
  /-- A thread in a park is blocked, or has been woken. -/
  parks : ∀ {i t}, s.chan.rq.tasks.get? i = some t → (s.poller t.pid).stage ≠ .out →
    t.state = .blocked ∧ ((s.poller t.pid).polls = true → t.blockedOn = some pollWaitChannel) ∨
      t.state = .ready
  /-- The tick looks at every task with a deadline. -/
  timed : ∀ {i t}, s.chan.rq.tasks.get? i = some t → t.state = .blocked →
    t.pollDeadline ≠ noDeadline → t.timedWaits pollWaitChannel = true
  registers : ∀ {i t d}, s.chan.rq.tasks.get? i = some t →
    (s.poller t.pid).stage = .registering d → t.pollDeadline = d ∨ t.pollDeadline = noDeadline
  next : ∀ {i t}, s.chan.rq.tasks.get? i = some t → t.state = .blocked →
    t.pollDeadline ≠ noDeadline → s.next ≤ t.pollDeadline ∨
      ∃ d, (s.poller t.pid).stage = .registering d
  late : ∀ {i t o}, s.chan.rq.tasks.get? i = some t → t.parkedOn pollWaitChannel = true →
    (s.poller t.pid).late o = true → t.pollMask &&& o.tag ≠ 0 → s.Covered o

/-- The invariant, for one task. -/
structure Kept (s : Poll) (t : Task) : Prop where
  parks : (s.poller t.pid).stage ≠ .out →
    t.state = .blocked ∧ ((s.poller t.pid).polls = true → t.blockedOn = some pollWaitChannel) ∨
      t.state = .ready
  timed : t.state = .blocked → t.pollDeadline ≠ noDeadline → t.timedWaits pollWaitChannel = true
  registers : ∀ {d}, (s.poller t.pid).stage = .registering d →
    t.pollDeadline = d ∨ t.pollDeadline = noDeadline
  next : t.state = .blocked → t.pollDeadline ≠ noDeadline → s.next ≤ t.pollDeadline ∨
    ∃ d, (s.poller t.pid).stage = .registering d
  late : ∀ {o}, t.parkedOn pollWaitChannel = true → (s.poller t.pid).late o = true →
    t.pollMask &&& o.tag ≠ 0 → s.Covered o

section Kept

variable {s s' : Poll} {t : Task}

/-- Little is asked of a task that is not blocked. -/
theorem Kept.of_awake (hb : t.state ≠ .blocked)
    (hp : (s.poller t.pid).stage ≠ .out → t.state = .ready)
    (hr : ∀ {d}, (s.poller t.pid).stage = .registering d →
      t.pollDeadline = d ∨ t.pollDeadline = noDeadline) : Kept s t := by
  refine ⟨fun hst => .inr (hp hst), fun h => absurd h hb, hr, fun h => absurd h hb, fun hpar => ?_⟩
  simp only [parkedOn, Bool.and_eq_true, beq_iff_eq] at hpar
  exact absurd hpar.2 hb

theorem Kept.congr (h : Kept s t) (hp : s'.poller t.pid = s.poller t.pid) (hn : s'.next = s.next)
    (hc : ∀ o, s.Covered o → s'.Covered o) : Kept s' t := by
  refine ⟨?_, h.timed, ?_, ?_, fun hpar hlate hm => hc _ (h.late hpar (hp ▸ hlate) hm)⟩
  · rw [hp]
    exact h.parks
  · rw [hp]
    exact h.registers
  · rw [hp, hn]
    exact h.next

theorem Inv.kept (h : s.Inv) {i : Nat} (ht : s.chan.rq.tasks.get? i = some t) : Kept s t :=
  ⟨h.parks ht, h.timed ht, h.registers ht, h.next ht, h.late ht⟩

theorem Inv.of_kept (hc : s.chan.Sound)
    (h : ∀ i t, s.chan.rq.tasks.get? i = some t → Kept s t) : s.Inv :=
  ⟨hc, fun ht => (h _ _ ht).parks, fun ht => (h _ _ ht).timed, fun ht => (h _ _ ht).registers,
    fun ht => (h _ _ ht).next, fun ht => (h _ _ ht).late⟩

end Kept

theorem Init.inv {s : Poll} (h : s.Init) : s.Inv := by
  refine .of_kept h.sound fun i t ht => ?_
  refine .of_awake (h.awake t ⟨i, ht⟩) (fun hst => absurd (h.out _) hst) fun hst => ?_
  rw [h.out] at hst
  contradiction

namespace Inv

variable {s : Poll}

variable {s' : Poll}

variable (h : s.Inv)
include h

/-- A wake keeps the invariant, whatever is still covered. -/
theorem woken (hc : Wakes s.chan s'.chan) (hp : s'.poller = s.poller)
    (hn : ∀ i t, s.chan.rq.tasks.get? i = some t → s'.chan.rq.tasks.get? i = some t →
      t.state = .blocked → t.pollDeadline ≠ noDeadline → s'.next ≤ t.pollDeadline ∨
        ∃ d, (s.poller t.pid).stage = .registering d)
    (hl : ∀ i t o, s.chan.rq.tasks.get? i = some t → s'.chan.rq.tasks.get? i = some t →
      t.parkedOn pollWaitChannel = true → (s.poller t.pid).late o = true →
      t.pollMask &&& o.tag ≠ 0 → s'.Covered o) : s'.Inv := by
  refine .of_kept hc.sound fun i t' ht' => ?_
  -- a task is as before, or was woken by this step
  obtain ⟨t, ht, rfl | ⟨hpid, hb, hr, hdl⟩⟩ := hc.slot ht'
  · have hk := h.kept ht
    refine ⟨?_, hk.timed, ?_, ?_, ?_⟩ <;> rw [hp]
    · exact hk.parks
    · exact hk.registers
    · exact hn i t' ht ht'
    · exact hl i t' _ ht ht'
  · -- woken: nothing is owed to it any more
    refine .of_awake (by rw [hr]; nofun) (fun _ => hr) fun hst => ?_
    rw [hp, hpid] at hst
    rcases hdl with hdl | hdl
    · rw [hdl]
      exact h.registers ht hst
    · exact .inr hdl

/-- A tagged wake leaves nobody parked that has one of its bits. -/
theorem tagged {tag : BitVec 64}
    (hc : s'.chan = s.chan.unblockPortTagged pollWaitChannel tag) (hp : s'.poller = s.poller)
    (hn : s'.next = s.next)
    (hl : ∀ o, s.Covered o → s'.Covered o ∨ tag &&& o.tag ≠ 0) : s'.Inv := by
  refine h.woken (hc ▸ wakes_unblockPortTagged h.sound _ _) hp ?_ ?_
  · intro i t ht _ hb hdl
    rw [hn]
    exact h.next ht hb hdl
  · intro i t o ht ht' hpar hlate hm
    rcases hl o (h.late ht hpar hlate hm) with hcov | htag
    · exact hcov
    rw [hc] at ht'
    rcases slot_unblockPortTagged h.sound ht' with ⟨-, hkept⟩ | ⟨u, -, -, rfl⟩
    · exact absurd (hkept hpar).1 (PollObject.meets htag hm)
    · contradiction

/-- A step that neither parks nor wakes. -/
theorem moved (hc : s'.chan = s.chan) (hn : s'.next ≤ s.next)
    (hpolls : ∀ pid, (s'.poller pid).polls = (s.poller pid).polls)
    (hp : ∀ pid, (s'.poller pid).stage = (s.poller pid).stage ∨
      (∀ d, (s'.poller pid).stage ≠ .registering d) ∧
        (∀ d, (s.poller pid).stage = .registering d → s'.next ≤ d) ∧
        ((s'.poller pid).stage = .out ∨ (s.poller pid).stage ≠ .out))
    (hl : ∀ pid o, (s'.poller pid).late o = true →
      (s.poller pid).late o = true ∧ (s.Covered o → s'.Covered o) ∨ s'.Covered o) : s'.Inv := by
  refine .of_kept (hc ▸ h.sound) fun i t ht => ?_
  rw [hc] at ht
  refine ⟨fun hst => ?_, h.timed ht, fun {d} hst => ?_, fun hb hdl => ?_, fun {o} hpar hlate hm => ?_⟩
  · -- a poller between its entry and its end is parked or awake
    rw [hpolls]
    rcases hp t.pid with he | ⟨-, -, he | he⟩
    · exact h.parks ht (he ▸ hst)
    · exact absurd he hst
    · exact h.parks ht he
  · rcases hp t.pid with he | ⟨he, -⟩
    · exact h.registers ht (he ▸ hst)
    · exact absurd hst (he d)
  -- the timer is due no later than the earliest deadline, or that is still to be registered
  · rcases h.next ht hb hdl with hle | ⟨d, hd⟩
    · exact .inl (hn.trans hle)
    rcases hp t.pid with he | ⟨-, hle, -⟩
    · exact .inr ⟨d, he.trans hd⟩
    · refine .inl ((hle d hd).trans_eq ?_)
      exact ((h.registers ht hd).resolve_right hdl).symm
  · rcases hl t.pid o hlate with ⟨hlate, hcov⟩ | hcov
    · exact hcov (h.late ht hpar hlate hm)
    · exact hcov

/-- A thread of the park goes on to a stage that registers nothing. -/
theorem goesOn {pid next : Nat} {st : PollStage} (hn : next ≤ s.next)
    (hst : ∀ d, st ≠ .registering d) (hd : ∀ d, (s.poller pid).stage = .registering d → next ≤ d)
    (ho : st = .out ∨ (s.poller pid).stage ≠ .out) :
    Inv { s with next, poller := s.goOn pid st } := by
  refine h.moved rfl hn (fun _ => update_field Poller.polls rfl) (fun q => ?_) fun q o hlate => ?_
  · by_cases hq : q = pid
    · subst hq
      simp only [goOn_self]
      exact .inr ⟨hst, hd, ho⟩
    · simp [goOn_other hq]
  · exact .inl ⟨(update_field (fun w => w.late o) (by rfl)).symm.trans hlate, id⟩

/-- What is covered stays so. -/
theorem covering (hc : s'.chan = s.chan) (hn : s'.next = s.next) (hp : s'.poller = s.poller)
    (hcov : ∀ {o}, s.Covered o → s'.Covered o) : s'.Inv :=
  h.moved hc hn.le (fun _ => by rw [hp]) (fun _ => .inl (by rw [hp])) fun _ _ hlate =>
    .inl ⟨by rwa [hp] at hlate, hcov⟩

/-- A thread parks, in one of the ways there are. -/
theorem parked {pid deadline : Nat} {c : Channels} {f : Task → Task} (hsound : c.Sound)
    (hslot : ∀ {i t'}, c.rq.tasks.get? i = some t' →
      (∃ t, s.chan.rq.tasks.get? i = some t ∧ t.pid = pid ∧ f t = t') ∨
        s.chan.rq.tasks.get? i = some t' ∧ t'.pid ≠ pid)
    (hpid : ∀ t, (f t).pid = t.pid) (hb : ∀ t, (f t).state = .blocked)
    (hd : ∀ t, (f t).pollDeadline = deadline)
    (ht : ∀ t, deadline ≠ noDeadline → (f t).timedWaits pollWaitChannel = true) {polls : Bool}
    (hon : polls = true → ∀ t, (f t).blockedOn = some pollWaitChannel) :
    Inv { s with chan := c, poller := s.enter pid deadline polls } := by
  refine .of_kept hsound fun i t' ht' => ?_
  rcases hslot ht' with ⟨t, -, hp, rfl⟩ | ⟨ht₀, hne⟩
  -- what the task says about itself when it starts to wait
  · have self : s.enter pid deadline polls (f t).pid =
        { stage := if deadline = noDeadline then .probing else .registering deadline
          polls := polls, probed := fun _ => false, found := false, late := fun _ => false } := by
      rw [hpid, hp, enter, update_self]
    refine ⟨fun _ => ?_, fun _ hdl => ht t (hd t ▸ hdl), fun {d} hst => ?_, fun _ hdl => ?_,
      fun {o} _ hlate => ?_⟩
    · dsimp only
      rw [self]
      exact .inl ⟨hb t, fun hpoll => hon hpoll t⟩
    · dsimp only at hst
      rw [self] at hst
      split at hst
      · contradiction
      · obtain rfl := PollStage.registering.inj hst
        exact .inl (hd t)
    · dsimp only
      rw [self]
      rw [hd t] at hdl
      exact .inr ⟨deadline, if_neg hdl⟩
    · dsimp only at hlate
      rw [self] at hlate
      contradiction
  · exact (h.kept ht₀).congr (update_of_ne hne _ _) rfl fun _ => id

theorem slot_blockOnPortUntil {pid port deadline : Nat} {mask : BitVec 64} {i : Nat}
    {t' : Task} (ht' : (s.chan.blockOnPortUntil pid port deadline mask).rq.tasks.get? i = some t') :
    (∃ t, s.chan.rq.tasks.get? i = some t ∧ t.pid = pid ∧
        { t with state := .blocked, blockedOn := some port, pollDeadline := deadline
                 pollMask := mask } = t') ∨
      s.chan.rq.tasks.get? i = some t' ∧ t'.pid ≠ pid := by
  unfold blockOnPortUntil at ht'
  split at ht'
  · exact slot_modifyPid h.sound.distinct ht'
  · next hi => exact .inr ⟨ht', RunQueue.findPidIdx_eq_none.mp hi t' ⟨i, ht'⟩⟩

theorem slot_blockOnFutex {pid uaddr : Nat} {deadline : Option Nat} {i : Nat}
    {t' : Task} (ht' : (s.chan.blockOnFutex pid uaddr deadline).rq.tasks.get? i = some t') :
    (∃ t, s.chan.rq.tasks.get? i = some t ∧ t.pid = pid ∧
        t.parkOnFutex uaddr (deadline.getD noDeadline) = t') ∨
      s.chan.rq.tasks.get? i = some t' ∧ t'.pid ≠ pid := by
  simp only [blockOnFutex, noteTimedWait] at ht'
  split at ht'
  · split at ht' <;> exact slot_modifyPid h.sound.distinct ht'
  · exact slot_modifyPid h.sound.distinct ht'

/-- Widening a mask brings up no object that was missed and is no longer covered. -/
theorem widened {matchTag add : BitVec 64} (hok : s.ok (.widen matchTag add)) :
    Inv { s with chan := s.chan.widenPortMasks pollWaitChannel matchTag add } := by
  refine .of_kept (h.sound.widenPortMasks _ matchTag add) fun i t' ht' => ?_
  -- a mask is as before, or has got the new bits because it had an old one in common
  obtain ⟨t, mask, ht, rfl, hmask⟩ : ∃ t mask, s.chan.rq.tasks.get? i = some t ∧
      t' = { t with pollMask := mask } ∧ (mask = t.pollMask ∨ t.parkedOn pollWaitChannel = true ∧
        t.pollMask &&& matchTag ≠ 0 ∧ mask = t.pollMask ||| add) := by
    obtain ⟨t, ht, rfl⟩ := slot_walk ht'
    split
    · split
      · next hc =>
        simp only [Bool.and_eq_true, bne_iff_ne] at hc
        exact ⟨t, _, ht, rfl, .inr ⟨hc.1, hc.2, rfl⟩⟩
      · exact ⟨t, t.pollMask, ht, rfl, .inl rfl⟩
    · exact ⟨t, t.pollMask, ht, rfl, .inl rfl⟩
  have hk := h.kept ht
  refine ⟨hk.parks, hk.timed, hk.registers, hk.next, fun {o} hpar hlate hm => ?_⟩
  rcases hmask with rfl | ⟨hp, hmatch, rfl⟩
  · exact h.late ht hpar hlate hm
  -- an object that only the new bits cover is one that `ok` leaves out
  by_cases hold : t.pollMask &&& o.tag = 0
  · refine hok t ⟨i, ht⟩ hp hmatch o hlate ?_ hold
    exact (or_and_ne_zero.mp hm).resolve_left fun hne => hne hold
  · exact h.late ht hpar hlate hold

/-- The tick publishes a deadline that is not later than any it leaves. -/
theorem tick_le {now i : Nat} {tags : BitVec 64} {t : Task} (ht : s.chan.rq.tasks.get? i = some t)
    (ht' : (s.chan.wakeDuePollDeadlines pollWaitChannel now tags).2.rq.tasks.get? i = some t)
    (hb : t.state = .blocked) (hdl : t.pollDeadline ≠ noDeadline) :
    (s.chan.wakeDuePollDeadlines pollWaitChannel now tags).1 ≤ t.pollDeadline := by
  have hwait := h.timed ht hb hdl
  -- a task with a deadline is one that the scan visits
  have hw : t.wakeScannable = true := by
    simp only [timedWaits, pollWaits, Bool.or_eq_true, beq_iff_eq] at hwait
    rcases hwait with (hp | hp) | hf
    · simp [wakeScannable, hb, hp]
    · simp [wakeScannable, hb, hp]
    · simp [wakeScannable, hb, hdl, bne_iff_ne.mp hf]
  have hp := h.sound.covers ht hw
  refine earliest_le ht hp hw hwait ?_
  -- had it been due, the tick would have woken it
  by_contra hdue
  rw [Bool.not_eq_false] at hdue
  obtain ⟨u, hu, he⟩ := slot_scan ht'
  cases ht.symm.trans hu
  simp only [hp, hw, hwait, hdue] at he
  rw [he] at hb
  contradiction

/-- Every step keeps the invariant that widens no mask by an object already missed. -/
theorem step {a : PollAction} (hok : s.ok a) (hs : s.step a = some s') : s'.Inv := by
  cases a with
  | prepare pid deadline mask =>
    obtain ⟨-, rfl⟩ := guard_eq_some hs
    -- all three ways to park are one lemma
    refine h.parked (h.sound.blockOnPortUntil pid _ deadline mask) h.slot_blockOnPortUntil
      (fun _ => rfl) (fun _ => rfl) (fun _ => rfl) (fun t _ => ?_) fun _ _ => rfl
    simp [timedWaits, pollWaits]
  | kwaitPrepare pid deadline =>
    obtain ⟨-, rfl⟩ := guard_eq_some hs
    refine h.parked (h.sound.blockOnPortUntil pid _ deadline 0) h.slot_blockOnPortUntil
      (fun _ => rfl) (fun _ => rfl) (fun _ => rfl) (fun t _ => ?_) nofun
    simp [timedWaits, pollWaits]
  | futexWait pid uaddr deadline =>
    obtain ⟨⟨-, h0⟩, rfl⟩ := guard_eq_some hs
    refine h.parked (h.sound.blockOnFutex pid uaddr deadline) h.slot_blockOnFutex
      (fun _ => rfl) (fun _ => rfl) (fun _ => rfl) (fun t _ => ?_) nofun
    simp [timedWaits, parkOnFutex, h0]
  | register =>
    simp only [Poll.step] at hs
    split at hs <;> try contradiction
    next d hd =>
    cases hs
    -- the deadline is with the timer from now on
    refine h.goesOn (min_le_left _ _) (by simp) (fun d' hd' => ?_) (.inr ?_)
    · rw [hd] at hd'
      obtain rfl := PollStage.registering.inj hd'
      exact min_le_right _ _
    · rw [hd]
      simp
  | probe =>
    obtain ⟨hst, rfl⟩ := guard_eq_some hs
    refine h.moved rfl le_rfl (fun _ => update_field Poller.polls rfl)
      (fun _ => .inl (update_field Poller.stage rfl)) fun q o' hlate => .inl ⟨?_, id⟩
    exact (update_field (fun w => w.late o') (by rfl)).symm.trans hlate
  | cancel pid =>
    obtain ⟨hst, rfl⟩ := guard_eq_some hs
    refine .of_kept (h.sound.blockOnPortCancel pid) fun i t' ht' => ?_
    rcases slot_modifyPid h.sound.distinct ht' with ⟨t, ht, rfl, rfl⟩ | ⟨ht, hne⟩
    · have hout : (s.goOn t.pid .out t.pid).stage = .out := by rw [goOn_self]
      exact .of_awake (by simp) (fun hno => absurd hout hno) fun hd => by cases hout.symm.trans hd
    · exact (h.kept ht).congr (goOn_other hne) rfl fun _ => id
  | commit =>
    obtain ⟨⟨hst, -⟩, rfl⟩ := guard_eq_some hs
    refine h.goesOn le_rfl (by simp) ?_ (.inr ?_) <;> simp [hst]
  | resume =>
    obtain ⟨⟨hst, -⟩, rfl⟩ := guard_eq_some hs
    refine h.goesOn le_rfl (by simp) ?_ (.inl rfl)
    rw [hst]
    simp
  | signal pid =>
    cases hs
    exact h.woken (wakes_signal h.sound pid) rfl (fun _ _ ht _ => h.next ht)
      fun _ _ _ ht _ => h.late ht
  | wakeKwaiter pid =>
    cases hs
    exact h.woken (wakes_wakeKwaiter h.sound pid) rfl (fun _ _ ht _ => h.next ht)
      fun _ _ _ ht _ => h.late ht
  | publish who o =>
    obtain ⟨hnone, rfl⟩ := guard_eq_some hs
    refine h.moved rfl le_rfl (fun q => ?_) (fun q => .inl ?_) fun q o' hlate => ?_
    · simp only [miss]
      split <;> rfl
    · simp only [miss]
      split <;> rfl
    -- the object itself is owed a wake by who published it
    by_cases ho : o' = o
    · subst ho
      exact .inr (.inl ⟨who, update_self _ _ _⟩)
    refine .inl ⟨?_, ?_⟩
    -- any other object was late before
    · simp only [miss] at hlate
      split at hlate
      · exact (update_of_ne ho _ _).symm.trans hlate
      · exact hlate
    · rintro (⟨p, hp⟩ | hcov)
      · refine .inl ⟨p, ?_⟩
        dsimp only
        rw [update_of_ne, hp]
        rintro rfl
        rw [hnone] at hp
        contradiction
      · exact .inr hcov
  | consume =>
    cases hs
    exact h.covering rfl rfl rfl id
  | wake who =>
    simp only [Poll.step] at hs
    split at hs <;> try contradiction
    next o ho =>
    -- the wake that was owed has been made
    obtain ⟨htag, rfl⟩ := guard_eq_some hs
    refine h.tagged rfl rfl rfl fun o' hcov => ?_
    rcases hcov with ⟨p, hp⟩ | hcov
    · by_cases hpw : p = who
      · subst hpw
        cases ho.symm.trans hp
        exact .inr (PollObject.covers_ne_zero htag)
      · exact .inl (.inl ⟨p, (update_of_ne hpw _ _).trans hp⟩)
    · exact .inl (.inr hcov)
  | request who =>
    simp only [Poll.step] at hs
    split at hs <;> try contradiction
    next o ho =>
    -- the bit waits for the next tick
    obtain ⟨htag, rfl⟩ := guard_eq_some hs
    refine h.covering rfl rfl rfl ?_
    rintro o' (⟨p, hp⟩ | hcov | hcov)
    · by_cases hpw : p = who
      · subst hpw
        cases ho.symm.trans hp
        exact .inr (.inl (or_and_ne_zero.mpr (.inr (PollObject.covers_ne_zero htag))))
      · exact .inl ⟨p, (update_of_ne hpw _ _).trans hp⟩
    · exact .inr (.inl (or_and_ne_zero.mpr (.inl hcov)))
    · exact .inr (.inr hcov)
  | broadcast =>
    cases hs
    exact h.tagged rfl rfl rfl fun o hcov => .inl hcov
  | take cpu =>
    obtain ⟨h0, rfl⟩ := guard_eq_some hs
    refine h.covering rfl rfl rfl ?_
    rintro o (hp | hcov | ⟨c, hcov⟩)
    · exact .inl hp
    -- what the flag covered is now with the CPU that took it
    · refine .inr (.inr ⟨cpu, ?_⟩)
      dsimp only
      rwa [update_self]
    · refine .inr (.inr ⟨c, ?_⟩)
      dsimp only
      rw [update_of_ne]
      · exact hcov
      · rintro rfl
        rw [h0] at hcov
        exact hcov BitVec.zero_and
  | pay cpu locked =>
    have hback : ∀ {o : PollObject} {c}, s.taken c &&& o.tag ≠ 0 →
        c = cpu ∨ update s.taken cpu 0 c &&& o.tag ≠ 0 := by
      intro o c hcov
      by_cases hc : c = cpu
      · exact .inl hc
      · rw [update_of_ne hc]
        exact .inr hcov
    -- the tick gets the lock and wakes, or puts the bits back
    cases locked with
    | true =>
      cases hs
      refine h.tagged rfl rfl rfl fun o hcov => ?_
      rcases hcov with hp | hcov | ⟨c, hcov⟩
      · exact .inl (.inl hp)
      · exact .inl (.inr (.inl hcov))
      · rcases hback hcov with rfl | hcov'
        · exact .inr hcov
        · exact .inl (.inr (.inr ⟨c, hcov'⟩))
    | false =>
      cases hs
      refine h.covering rfl rfl rfl ?_
      rintro o (hp | hcov | ⟨c, hcov⟩)
      · exact .inl hp
      · exact .inr (.inl (or_and_ne_zero.mpr (.inl hcov)))
      · rcases hback hcov with rfl | hcov'
        · exact .inr (.inl (or_and_ne_zero.mpr (.inr hcov)))
        · exact .inr (.inr ⟨c, hcov'⟩)
  | widen =>
    simp only [Poll.step] at hs
    split at hs
    · contradiction
    · cases hs
      exact h.widened hok
  | tick now tags =>
    cases hs
    refine h.woken (wakes_tick h.sound now tags) rfl (fun i t ht ht' hb hdl => .inl ?_)
      fun _ _ _ ht _ => h.late ht
    exact h.tick_le ht ht' hb hdl

end Inv

/-- **A wake is not lost.** In every run in which no mask is widened by an object that was
missed: a parked poller that missed an object of its mask is ready, or somebody is still to
wake for it; a broadcast leaves nobody parked; and the tick will not come too late for
anybody's deadline. -/
theorem no_lost_poll_wake {s : Poll} (h : Reachable Init ok step s) :
    (∀ t ∈ s.chan.rq, (s.poller t.pid).stage ≠ .out → (s.poller t.pid).polls = true →
      ∀ o, (s.poller t.pid).late o = true → t.pollMask &&& o.tag ≠ 0 →
        t.state = .ready ∨ s.Covered o) ∧
    (∀ t ∈ (s.wakePollTagged pollTagAll).chan.rq, t.parkedOn pollWaitChannel = false) ∧
    ∀ t ∈ s.chan.rq, t.state = .blocked → t.pollDeadline ≠ noDeadline →
      (∀ d, (s.poller t.pid).stage ≠ .registering d) → s.next ≤ t.pollDeadline := by
  have hinv : s.Inv := h.invariant (fun _ h => h.inv) fun _ _ _ h hok hs => h.step hok hs
  refine ⟨?_, ?_, ?_⟩
  · rintro t ⟨i, ht⟩ hst hpoll o hlate hm
    -- a poller that is asleep with an object late has that object covered
    rcases hinv.parks ht hst with ⟨hb, hon⟩ | hr
    · exact .inr (hinv.late ht (by simp [parkedOn, hb, hon hpoll]) hlate hm)
    · exact .inl hr
  · rintro t' ⟨i, ht'⟩
    -- a wake with all bits leaves nobody asleep on the channel
    by_contra hpar
    rw [Bool.not_eq_false] at hpar
    rcases slot_unblockPortTagged hinv.sound ht' with ⟨-, hkept⟩ | ⟨u, -, -, rfl⟩
    · exact (hkept hpar).2 rfl
    · contradiction
  · rintro t ⟨i, ht⟩ hb hdl hst
    exact (hinv.next ht hb hdl).resolve_right fun h => h.elim hst

/-- Two tasks, none of them parked. -/
def quiet : Poll where
  chan :=
    { rq :=
        { tasks := (OrdMap.empty.insert 0 { newKernel 5 with state := .running }).insert 1
            { newKernel 6 with state := .running }
          len := 2
          nproc := 2 }
      parked := fun _ => false }
  next := noDeadline
  pending := 0
  ready := fun _ => false
  poller := fun _ => ⟨.out, false, fun _ => false, false, fun _ => false⟩
  producer := fun _ => none
  taken := fun _ => 0

theorem init_quiet : quiet.Init := by
  have hawake : ∀ t ∈ quiet.chan.rq, t.state ≠ .blocked := fun t ht =>
    (show ∀ t ∈ quiet.chan.rq.slots, t.state ≠ .blocked by decide +kernel) t
      (RunQueue.mem_slots.mpr ht)
  refine ⟨⟨RunQueue.distinct_of_slots (by decide +kernel), fun {i t} ht hw => ?_⟩, hawake, fun _ => rfl⟩
  simp only [wakeScannable, Bool.and_eq_true, beq_iff_eq] at hw
  exact absurd hw.1 (hawake t ⟨i, ht⟩)

/-- Thread 5 waits for a pipe until instant 100; the pipe becomes readable and the wake is
left to the tick. -/
theorem no_lost_poll_wake_deferred :
    ∃ s, Reachable Init ok step s ∧ (s.poller 5).late ⟨1, 3⟩ = true ∧ s.pending = pollTag 1 3 ∧
      (∀ t ∈ s.chan.rq, t.state = .blocked → t.pollDeadline ≠ noDeadline →
        (∀ d, (s.poller t.pid).stage ≠ .registering d) → s.next ≤ t.pollDeadline) := by
  have hrun : Reachable Init ok step _ :=
    ((((((Reachable.start init_quiet).next (a := .prepare 5 100 (pollTag 1 3)) trivial rfl).next
      (a := .register 5) trivial rfl).next (a := .probe 5 ⟨1, 3⟩) trivial rfl).next
      (a := .commit 5) trivial rfl).next (a := .publish 0 ⟨1, 3⟩) trivial rfl).next
      (a := .request 0 (pollTag 1 3)) trivial rfl
  exact ⟨_, hrun, by decide +kernel, by decide +kernel, (no_lost_poll_wake hrun).2.2⟩

/-- Thread 5 waits on an epoll instance. `epoll_ctl` finds a pipe that is not ready, the pipe
becomes ready and wakes those who have its bit, and only then is the bit added to the mask of
thread 5, which sleeps on. -/
theorem widened_too_late :
    ∃ s, Reachable Init (fun _ _ => True) step s ∧ (s.poller 5).stage = .committed ∧
      (s.poller 5).polls = true ∧ (s.poller 5).late ⟨1, 3⟩ = true ∧
      (s.chan.rq.findPid 5).any (fun t =>
        t.state == .blocked && (t.pollMask &&& pollTag 1 3) != 0) = true ∧
      ¬s.Covered ⟨1, 3⟩ := by
  have hrun : Reachable Init (fun _ _ => True) step _ :=
    (((((Reachable.start init_quiet).next (a := .prepare 5 noDeadline (pollTag 13 0)) trivial
      rfl).next (a := .commit 5) trivial rfl).next (a := .publish 0 ⟨1, 3⟩) trivial rfl).next
      (a := .wake 0 (pollTag 1 3)) trivial rfl).next
      (a := .widen (pollTag 13 0) (pollTag 1 3)) trivial rfl
  refine ⟨_, hrun, by decide +kernel, by decide +kernel, by decide +kernel, by decide +kernel, ?_⟩
  rintro (⟨who, hw⟩ | hp | ⟨cpu, hc⟩)
  -- nobody owes the wake: it was made before the mask had the bit
  · have hw : update (update (fun _ => none) 0 (some ⟨1, 3⟩)) 0 none who =
        some (⟨1, 3⟩ : PollObject) := hw
    rw [update_idem, update_apply] at hw
    split at hw <;> contradiction
  · exact hp (by decide +kernel)
  · exact hc BitVec.zero_and

end Poll

end Leandros.Sched
