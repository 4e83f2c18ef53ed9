import Leandros.Sched.Ksync.Fair
import Leandros.Sched.Ksync.Linked

/-!
# Leandros.Sched.Ksync.Locks

**What every step of the sleeping locks keeps.** `Orderly` puts the two halves together: the fields
of each lock are true to its ledger (`Lock.Fair`), and its wait list is true to the contexts that
wait (`Linked`).

There is one lemma for each step of `Ksync`, named as the step is. The two halves meet where a lock
changes hands: `up` and `unlock` take a node off the list and make its context a holder in the same
hold of the spinlock, and `release` grants to a run of readers or to one writer (`grantMore`).
Whoever was handed the lock is told of it later, so a waiter may hold a lock before it knows.
-/

namespace Leandros.Sched

open Function (update update_apply update_eq_self update_idem update_of_ne update_self)

namespace Ksync

theorem idle_eq_some {s s' : Ksync} {who : Context} {x : Option Ksync}
    (h : s.idle who x = some s') : s.place who = .idle ∧ x = some s' := by
  unfold idle at h
  split at h
  · next hi => exact ⟨hi, h⟩
  · contradiction

theorem inWait_eq_some {s s' : Ksync} {who : Context} {f : Wait → Option Ksync}
    (h : s.inWait who f = some s') : ∃ w, s.place who = .waiting w ∧ f w = some s' := by
  unfold inWait at h
  split at h
  · next w hw => exact ⟨w, hw, h⟩
  · contradiction

/-- What every step keeps of the locks. -/
structure Orderly (lock : Nat → Lock) (ledger : Nat → Ledger) (place : Context → Place) : Prop where
  fair : ∀ n, (lock n).Fair (ledger n)
  linked : Linked lock ledger place

namespace Orderly

variable {lock : Nat → Lock} {ledger : Nat → Ledger} {place : Context → Place} {who : Context}
  {n : Nat} {s s' : Ksync}

variable {p : Place} {l : Lock} {g : Ledger}

theorem goTo (h : Orderly lock ledger place) (h0 : ∀ w, place who ≠ .waiting w)
    (hp : ∀ w, p ≠ .waiting w) : Orderly lock ledger (update place who p) :=
  ⟨h.fair, h.linked.goTo h0 hp⟩

theorem fair_update (h : ∀ n, (lock n).Fair (ledger n)) (hl : l.Fair g)
    (m : Nat) : (update lock n l m).Fair (update ledger n g m) := by
  rw [update_apply, update_apply]
  split
  · exact hl
  · exact h m

theorem fair_update_lock (h : ∀ n, (lock n).Fair (ledger n)) (hl : l.Fair (ledger n))
    (m : Nat) : (update lock n l m).Fair (ledger m) := by
  rw [update_apply]
  split
  · next hm => exact hm ▸ hl
  · exact h m

/-- An idle context takes a lock, or counts what it took. -/
theorem relock (h : Orderly lock ledger place) (hl : l.Fair g) (hw : l.waiters = (lock n).waiters)
    (hg : ∀ e ∈ (ledger n).holders, e ∈ g.holders)
    (hs : ∀ q', l = .sema q' → (∃ q, lock n = .sema q) ∧ g.holders = (ledger n).holders) :
    Orderly (update lock n l) (update ledger n g) place :=
  ⟨fair_update h.fair hl, h.linked.relock hw (fun _ _ _ hm => hg _ hm) hs⟩

theorem enqueue (h : Orderly lock ledger place) {x : WaitNode} {w : Wait}
    (hl : l.Fair (ledger n)) (h0 : place who = .idle)
    (hq : Linked.Queued (lock n).waiters l.waiters x) (hwho : x.who = who) (hpid : x.pid = who.pid)
    (hw : w.lock = n ∧ w.kind = x.kind ∧ w.spin = x.spin ∧ w.granted = false ∧
      (w.spin = false ∧ w.stage = .prepare ∨ w.stage = .check))
    (hsl : w.spin = false → who.canSleep = true) (hs : ∀ q', l = .sema q' → ∃ q, lock n = .sema q) :
    Orderly (update lock n l) ledger (update place who (.waiting w)) :=
  ⟨fair_update_lock h.fair hl, h.linked.enqueue (fun w => by rw [h0]; nofun) hq hwho hpid hw hsl hs⟩

section

variable (h : Orderly s.lock s.ledger s.place)
include h

/-- A semaphore is taken, or the context queues for it. -/
theorem down {q : KSemaphore} (hq : s.lock n = .sema q)
    (h0 : s.place who = .idle) (hsl : who.canSleep = true) (deadline : Nat) :
    let r := q.downDeadline who
    let t := if r.1 then
        (s.setLock n (.sema r.2)).setLedger n fun l => { l with downs := l.downs + 1 }
      else s.enqueue who n (.sema r.2) .plain false deadline
    Orderly t.lock t.ledger t.place := by
  intro r t
  have hfair : (Lock.sema r.2).Fair
      (if r.1 then { s.ledger n with downs := (s.ledger n).downs + 1 } else s.ledger n) :=
    fair_down (hq ▸ h.fair n) who
  -- there is a unit to take, or the caller queues
  by_cases hpos : 0 < q.count
  · have hr : r = (true, { q with count := q.count - 1 }) := if_pos hpos
    rw [hr] at hfair
    simp only [t, hr, if_true]
    refine h.relock hfair ?_ (fun _ => id) fun q' _ => ⟨⟨q, hq⟩, rfl⟩
    rw [hq]
    rfl
  have hr : r = (false, { q with waiters := WaitList.pushBack q.waiters (.new who .plain) }) :=
    if_neg hpos
  rw [hr] at hfair
  simp only [t, hr, Bool.false_eq_true, if_false]
  refine h.enqueue (x := .new who .plain) hfair h0 ?_ rfl rfl ⟨rfl, rfl, rfl, rfl, .inl ⟨rfl, rfl⟩⟩
    (fun _ => hsl) fun _ _ => ⟨q, hq⟩
  rw [hq]
  exact Linked.queued_pushBack _ _

/-- A mutex is taken, or queued for. -/
theorem takeMutex {m : KRawMutex}
    (hm : s.lock n = .mutex m) (h0 : s.place who = .idle) (hp : who.pid + 1 < 2 ^ 32)
    {spin : Bool} (hsl : spin = false → who.canSleep = true) (deadline : Nat) {r : Bool × KRawMutex}
    (hr : m.owner = 0 ∧ r = (true, { m with owner := KRawMutex.me who }) ∨
      m.owner ≠ 0 ∧ ∃ x l, Linked.Queued m.waiters l x ∧ x.who = who ∧ x.pid = who.pid ∧
        x.kind = .plain ∧ x.spin = spin ∧ r = (false, { m with waiters := l })) :
    let t := s.takeMutex who n spin deadline r
    Orderly t.lock t.ledger t.place := by
  intro t
  have hfair := h.fair n
  rw [hm] at hfair
  -- the mutex was free, or the caller has been queued somewhere in the list
  rcases hr with ⟨hfree, rfl⟩ | ⟨hheld, x, l, hq, hwho, hpid, hk, hsp, rfl⟩
  · refine h.relock (fair_take hfair hfree hp) ?_ (fun _ he => .tail _ he) nofun
    rw [hm]
    rfl
  refine h.enqueue (x := x) ⟨hfair.1, fun _ => hheld, fun y hy => ?_⟩ h0 ?_ hwho hpid
    ⟨rfl, hk.symm, hsp.symm, rfl, ?_⟩ hsl nofun
  -- the overtaken waiters count one bypass more and are otherwise what they were
  · rcases hq.node y hy with ⟨hyw, hyk, -, hyp⟩ | ⟨z, hz, hyw, hyk, -, hyp⟩
    · rw [hyw, hyk, hyp, hwho, hpid]
      exact ⟨hk, rfl, hp⟩
    · rw [hyw, hyk, hyp]
      exact hfair.2.2 z hz
  · rw [hm]
    exact hq
  · cases spin
    · exact .inl ⟨rfl, rfl⟩
    · exact .inr rfl

/-- A reader-writer lock is taken, or the context queues for it. -/
theorem acquire {l : KRawRwLock}
    (hl : s.lock n = .rwlock l) (h0 : s.place who = .idle) {kind : WaitKind} (hk : kind ≠ .plain)
    (hok : kind = .reader → l.free kind = true → l.readers + 1 < 2 ^ 32) :
    (l.free kind = true → Orderly (update s.lock n (.rwlock (l.give kind)))
      (update s.ledger n (hold who kind (s.ledger n))) s.place) ∧
    (l.free kind = false → who.canSleep = true → ∀ deadline,
      let t := s.enqueue who n
        (.rwlock { l with waiters := WaitList.pushBack l.waiters (.new who kind) }) kind false
        deadline
      Orderly t.lock t.ledger t.place) := by
  have hfair := h.fair n
  rw [hl] at hfair
  constructor
  · -- nobody in the way: inside at once
    intro hfree
    refine h.relock (fair_give hfair hk hfree who fun hr => hok hr hfree) ?_ (fun _ he => .tail _ he) nofun
    rw [hl]
    cases kind <;> rfl
  · -- behind those who wait
    intro hfree hsl deadline
    refine h.enqueue (x := .new who kind) (fair_acquire_queue hfair hk hfree who) h0 ?_ rfl rfl
      ⟨rfl, rfl, rfl, rfl, .inl ⟨rfl, rfl⟩⟩ (fun _ => hsl) nofun
    rw [hl]
    exact Linked.queued_pushBack _ _

end

/-- The front of a list is granted the lock, by somebody who may have released it first. -/
theorem handOver (h : ∀ n, (lock n).Fair (ledger n))
    (hg : Linked lock (update ledger n g) place) {nodes : List WaitNode}
    {g' : Ledger} (hl : l.Fair g') (hg' : g'.holders = (holdAll nodes g).holders)
    (h0 : ∀ w, place who ≠ .waiting w) (hp : ∀ w, p ≠ .waiting w)
    (hw : (lock n).waiters = nodes ++ l.waiters)
    (hs : ∀ q', l = .sema q' → (∃ q, lock n = .sema q) ∧ ∀ x ∈ nodes, x.kind = .plain) :
    Orderly (update lock n l) (update ledger n g') (update (grantAll place nodes) who p) := by
  refine ⟨fair_update h hl, ?_⟩
  have hlinked := hg.handOver h0 hp hw (by rw [update_self]; exact hg') hs
  rwa [update_idem] at hlinked

theorem waiters_grantRound (l : KRawRwLock) :
    l.waiters = l.grantRound.1.1 ++ l.grantRound.2.waiters := by
  unfold KRawRwLock.grantRound
  split
  · rfl
  split
  · next hq => rw [hq]; rfl
  · next x rest hq =>
    split
    · split
      · exact hq
      · rfl
    · exact (popReaders_spec 16 l.waiters).1.symm
    · rfl

theorem waiters_unlock (m : KRawMutex) : m.waiters = m.unlock.1.toList ++ m.unlock.2.waiters := by
  unfold KRawMutex.unlock
  split
  · next hq => exact hq
  · next hq => exact hq.trans hq.symm

theorem waiters_up (q : KSemaphore) : q.waiters = q.up.1.toList ++ q.up.2.waiters := by
  unfold KSemaphore.up
  split
  · next hq => exact hq
  · next hq => exact hq.trans hq.symm

/-- The locked part of a round of a wait. -/
theorem check (h : Orderly s.lock s.ledger s.place) {w : Wait} (hc : s.place who = .waiting w)
    (hst : w.stage = .check) {now : Nat}
    (hs : s.step (.check who now) = some s') : Orderly s'.lock s'.ledger s'.place := by
  obtain ⟨w', hw', he⟩ := inWait_eq_some hs
  rw [hc] at hw'
  obtain rfl := Place.waiting.inj hw'
  obtain ⟨-, rfl⟩ := guard_eq_some he
  split
  · -- granted: it goes on with the lock, whatever the clock says
    next hg =>
    refine ⟨h.fair, h.linked.stage hc (fun hn => ?_) (fun r hr => ?_) fun hsp => ?_⟩
    · rw [hg] at hn
      contradiction
    · rw [hg]
      split at hr <;> simpa using hr
    · split <;> exact ⟨nofun, nofun⟩
  · next hg =>
    rw [Bool.not_eq_true] at hg
    -- the deadline has passed, or there is more time
    split
    · refine ⟨fair_update_lock h.fair (fair_unlink (h.fair w.lock) who),
        h.linked.timeout hc hg ?_ ?_ ?_⟩
      · split
        · exact .inr rfl
        · exact .inl rfl
      · cases s.lock w.lock <;> rfl
      · intro q' hq'
        cases hl : s.lock w.lock with
        | sema q => exact ⟨q, rfl⟩
        | _ =>
          rw [hl] at hq'
          nomatch hq'
    · split
      · exact h
      · next hsp =>
        refine ⟨h.fair, h.linked.stage hc (fun _ => by rw [hst]; rfl) nofun
          fun hsp' => absurd hsp' hsp⟩

/-- A waiter returns with what it was granted. -/
theorem leave (h : Orderly s.lock s.ledger s.place)
    (hs : s.step (.leave who) = some s') : Orderly s'.lock s'.ledger s'.place := by
  obtain ⟨w, hc, he⟩ := inWait_eq_some hs
  split at he <;> try contradiction
  next r hst =>
  have hres : w.granted = r := h.linked.result hc (.inr hst)
  split at he
  · next q hq =>
    cases he
    have hfair := h.fair w.lock
    rw [hq] at hfair
    -- the unit of a semaphore is with the waiter until it returns, and it returns with it if granted
    have hkeep : r = false → (who, WaitKind.plain) ∉ (s.ledger w.lock).holders := by
      intro hr hm
      obtain ⟨-, v, hv, -, hgr⟩ := h.linked.units hq hm
      rw [hc] at hv
      obtain rfl := Place.waiting.inj hv
      rw [hgr, hr] at hres
      contradiction
    have hkind : r = true → (who, WaitKind.plain) ∈ (s.ledger w.lock).holders := by
      intro hr
      have hm := h.linked.granted hc (hres.trans hr)
      have hk : w.kind = .plain := (h.linked.units hq hm).1
      rwa [hk] at hm
    refine ⟨fun m => ?_, h.linked.leave hc hst (fun m hm => update_of_ne hm _ _) ?_
      fun hn => absurd hq (hn q)⟩
    · change (s.lock m).Fair (update s.ledger _ _ m)
      rw [update_apply]
      split
      · next hm =>
        rw [hm, hq]
        split
        · next hr =>
          refine ⟨hfair.1, hfair.2.1, ?_, hfair.2.2.2⟩
          have hpos := List.length_pos_of_mem (hkind hr)
          simp only [drop, List.length_erase_of_mem (hkind hr)]
          have hsum := hfair.2.2.1
          push_cast
          omega
        · exact hfair
      · exact h.fair m
    · intro _ _
      change (update s.ledger _ _ w.lock).holders = _
      rw [update_self]
      split
      · rfl
      · next hr => rw [List.erase_of_not_mem (hkeep (Bool.not_eq_true _ ▸ hr))]
  -- the owner of a mutex or a rwlock keeps it after it returns
  · next m hm =>
    cases he
    exact ⟨h.fair, h.linked.leave hc hst (fun _ _ => rfl) (fun q hq => by rw [hm] at hq; contradiction)
      fun _ => rfl⟩
  · next l hl =>
    cases he
    exact ⟨h.fair, h.linked.leave hc hst (fun _ _ => rfl) (fun q hq => by rw [hl] at hq; contradiction)
      fun _ => rfl⟩

theorem idle_ne (h : p = .idle) (w : Wait) : p ≠ .waiting w := by
  rw [h]
  nofun

section

variable (s : Ksync) (who : Context) (n : Nat) (l : Lock) (nodes : List WaitNode)
  (more : Option Nat) (f : Ledger → Ledger)

theorem handOver_ledger :
    ((s.setLedger n f).handOver who n l nodes more).ledger =
      update s.ledger n (holdAll nodes (f (s.ledger n))) := by
  simp [Ksync.handOver, setLedger, setLock]

theorem ledger_handOver :
    ((s.handOver who n l nodes more).setLedger n f).ledger =
      update s.ledger n (f (holdAll nodes (s.ledger n))) := by
  simp [Ksync.handOver, setLedger, setLock]

end

variable (h : Orderly s.lock s.ledger s.place)
include h

theorem linked_self (n : Nat) : Linked s.lock (update s.ledger n (s.ledger n)) s.place := by
  rw [update_eq_self]
  exact h.linked

theorem up {q : KSemaphore} (hq : s.lock n = .sema q)
    (h0 : s.place who = .idle) (hok : q.waiters = [] → q.count < 2 ^ 63 - 1) :
    let t := (s.handOver who n (.sema q.up.2) q.up.1.toList none).setLedger n fun l =>
      { l with ups := l.ups + 1 }
    Orderly t.lock t.ledger t.place := by
  intro t
  have hfair := h.fair n
  rw [hq] at hfair
  rw [show t.ledger = _ from ledger_handOver s who n _ _ none _]
  refine handOver h.fair (h.linked_self n) (fair_up hfair hok) rfl (idle_ne h0) nofun ?_
    fun _ _ => ⟨⟨q, hq⟩, fun x hx => hfair.2.2.2.2 x ?_⟩
  · rw [hq]
    exact waiters_up q
  · rw [waiters_up q]
    exact List.mem_append_left _ hx

theorem unlock {m : KRawMutex} (hm : s.lock n = .mutex m)
    (h0 : s.place who = .idle) (hh : (who, WaitKind.plain) ∈ (s.ledger n).holders) :
    let t := (s.setLedger n (drop who .plain)).handOver who n (.mutex m.unlock.2)
      m.unlock.1.toList none
    Orderly t.lock t.ledger t.place := by
  intro t
  have hfair := h.fair n
  rw [hm] at hfair
  rw [show t.ledger = _ from handOver_ledger s who n _ _ none _]
  refine handOver h.fair (h.linked.drop h0 (by rw [hm]; nofun)) (fair_unlock hfair hh) rfl
    (idle_ne h0) nofun ?_ nofun
  rw [hm]
  exact waiters_unlock m

/-- A release hands the lock on to those whose turn it is. -/
theorem release {l : KRawRwLock}
    (hl : s.lock n = .rwlock l) (h0 : s.place who = .idle) {kind : WaitKind} (hk : kind ≠ .plain)
    (hh : (who, kind) ∈ (s.ledger n).holders)
    (hok : (if kind = .reader then l.readers - 1 else l.readers) +
      min 16 (l.waiters.takeWhile (·.kind = .reader)).length < 2 ^ 32) :
    let t := (s.setLedger n (drop who kind)).grantRound who n
      (if kind = .reader then l.readRelease else l.writeRelease)
    Orderly t.lock t.ledger t.place := by
  intro t
  have hfair := h.fair n
  rw [hl] at hfair
  rw [show t.ledger = _ from handOver_ledger s who n _ _ _ _]
  -- the lock without the one who leaves, and then a round of grants
  refine handOver h.fair (h.linked.drop h0 (by rw [hl]; nofun))
    (fair_grantRound (shares_release hfair hk hh) ?_) rfl (idle_ne h0) nofun ?_ nofun
  · cases kind <;> exact hok
  · rw [hl]
    refine Eq.trans ?_ (waiters_grantRound _)
    split <;> rfl

theorem grantMore {l : KRawRwLock} (hl : s.lock n = .rwlock l) (h0 : ∀ w, s.place who ≠ .waiting w)
    (hok : l.readers + min 16 (l.waiters.takeWhile (·.kind = .reader)).length < 2 ^ 32) :
    let t := s.grantRound who n l
    Orderly t.lock t.ledger t.place := by
  intro t
  have hfair := h.fair n
  rw [hl] at hfair
  refine handOver h.fair (h.linked_self n) (fair_grantRound ⟨hfair.1, hfair.2.2⟩ hok) rfl h0 nofun
    ?_ nofun
  rw [hl]
  exact waiters_grantRound l

end Orderly

end Ksync

end Leandros.Sched
