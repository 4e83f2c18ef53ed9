import Leandros.Sched.Ksync.Model

/-!
# Leandros.Sched.Ksync.Fair

**Who holds a lock.** A lock's fields say what its ledger says, and somebody is queued only
while the lock is held (`Fair`). Every operation under a lock's spinlock keeps this.

The ledger is not in the source: it lists the holders and counts the ups and downs, and the fields are
compared with it. For a semaphore the units that came in are those left, taken or on
their way to a waiter; for a mutex the owner word is the holder's pid plus one; for a reader-writer
lock there is one writer or as many readers as the count says. The grant to a waiter is made under
the same spinlock as the release, so the lock is never free while somebody queues for it.

Counters are machine words. A step that would wrap one is left out (`Ksync.ok`).
-/

namespace Leandros.Sched

open Lock
open WaitList
open Or (inl inr)
open List (length_cons map_cons map_nil mem_append mem_cons mem_singleton nil_append)

/-- A lock's fields and its ledger agree, and whoever waits has somebody to wait for. -/
def Lock.Fair (g : Ledger) : Lock → Prop
  | .sema q =>
    0 ≤ q.count ∧ q.count < 2 ^ 63 ∧ g.initial + g.ups = q.count + g.downs + g.holders.length ∧
      (q.waiters ≠ [] → q.count = 0) ∧ ∀ x ∈ q.waiters, x.kind = .plain
  | .mutex m =>
    (m.owner = 0 ∧ g.holders = [] ∨ ∃ c, m.owner = c.pid + 1 ∧ g.holders = [(c, .plain)]) ∧
      (m.waiters ≠ [] → m.owner ≠ 0) ∧
      ∀ x ∈ m.waiters, x.kind = .plain ∧ x.pid = x.who.pid ∧ x.pid + 1 < 2 ^ 32
  | .rwlock l =>
    (l.writer = true ∧ l.readers = 0 ∧ (∃ c, g.holders = [(c, .writer)]) ∨
      l.writer = false ∧ l.readers = g.holders.length ∧ ∀ e ∈ g.holders, e.2 = .reader) ∧
      (l.waiters ≠ [] → l.writer = true ∨ l.readers ≠ 0) ∧ ∀ x ∈ l.waiters, x.kind ≠ .plain

namespace Ksync

/-- The step wraps no counter. -/
def ok (s : Ksync) : KsyncAction → Prop
  | .up _ n =>
    match s.lock n with
    | .sema q => q.waiters = [] → q.count < 2 ^ 63 - 1
    | _ => True
  | .tryLock who _ | .lock who _ _ | .lockClass who _ _ _ _ _ => who.pid + 1 < 2 ^ 32
  | .tryAcquire _ n .reader | .acquire _ n .reader =>
    match s.lock n with
    | .rwlock l => l.free .reader = true → l.readers + 1 < 2 ^ 32
    | _ => True
  | .release _ n kind =>
    match s.lock n with
    | .rwlock l =>
      (if kind = .reader then l.readers - 1 else l.readers) +
        min 16 (l.waiters.takeWhile (·.kind = .reader)).length < 2 ^ 32
    | _ => True
  | .grantMore who =>
    match s.place who with
    | .waking [] (some n) =>
      match s.lock n with
      | .rwlock l =>
        l.readers + min 16 (l.waiters.takeWhile (·.kind = .reader)).length < 2 ^ 32
      | _ => True
    | _ => True
  | _ => True

/-! ### Fairness of each operation -/

section Fair

variable {g : Ledger}

theorem wrapI64_of_lt {x : Int} (h0 : 0 ≤ x) (h : x < 2 ^ 63) : wrapI64 x = x := by
  unfold wrapI64
  rw [Int.emod_eq_of_lt] <;> omega

variable {q : KSemaphore} {who : Context} {m : KRawMutex} {l : KRawRwLock} {kind : WaitKind}

theorem fair_unit (h : (sema q).Fair g) (hpos : 0 < q.count) :
    (sema { q with count := q.count - 1 }).Fair { g with downs := g.downs + 1 } := by
  obtain ⟨h0, hlt, hsum, hw, hk⟩ := h
  refine ⟨by dsimp only; omega, by dsimp only; omega, by dsimp only; omega, fun hne => ?_, hk⟩
  have := hw hne
  omega

theorem fair_tryDown (h : (sema q).Fair g) : (sema q.tryDown.2).Fair
      (if q.tryDown.1 then { g with downs := g.downs + 1 } else g) := by
  unfold KSemaphore.tryDown
  split
  · next hpos => exact fair_unit h hpos
  · exact h

theorem fair_down (h : (sema q).Fair g) (who : Context) : (sema (q.downDeadline who).2).Fair
      (if (q.downDeadline who).1 then { g with downs := g.downs + 1 } else g) := by
  unfold KSemaphore.downDeadline
  split
  · next hpos => exact fair_unit h hpos
  · next hpos =>
    obtain ⟨h0, hlt, hsum, hw, hk⟩ := h
    refine ⟨h0, hlt, hsum, fun _ => by dsimp only; omega, fun x hx => ?_⟩
    rcases mem_append.mp hx with hx | hx
    · exact hk x hx
    · rw [mem_singleton.mp hx]
      rfl

theorem fair_up (h : (sema q).Fair g) (hok : q.waiters = [] → q.count < 2 ^ 63 - 1) :
    (sema q.up.2).Fair { holdAll q.up.1.toList g with ups := g.ups + 1 } := by
  obtain ⟨h0, hlt, hsum, hw, hk⟩ := h
  unfold KSemaphore.up
  cases hq : q.waiters with
  | nil =>
    have hc := hok hq
    have hwrap : wrapI64 (q.count + 1) = q.count + 1 := wrapI64_of_lt (by omega) (by omega)
    simp only [Fair, holdAll, Option.toList_none, map_nil, nil_append]
    refine ⟨by omega, by omega, by push_cast; omega, fun hne => absurd rfl hne, nofun⟩
  | cons n =>
    have hc : q.count = 0 := hw (by rw [hq]; nofun)
    refine ⟨h0, hlt, ?_, fun _ => hc, fun x hx => hk x (by rw [hq]; exact .tail n hx)⟩
    simp only [holdAll, Option.toList_some, map_cons, map_nil, List.cons_append,
      nil_append, length_cons]
    omega

/-- A mutex that is free is taken. -/
theorem fair_take (h : (mutex m).Fair g) (h0 : m.owner = 0) (hp : who.pid + 1 < 2 ^ 32) :
    (mutex { m with owner := KRawMutex.me who }).Fair (hold who .plain g) := by
  obtain ⟨hown, hw, hk⟩ := h
  rcases hown with ⟨-, hg⟩ | ⟨c, hc, -⟩
  · refine ⟨inr ⟨who, Nat.mod_eq_of_lt hp, ?_⟩, fun hne => absurd h0 (hw hne), hk⟩
    rw [hold, hg]
  · omega

/-- A mutex is handed to the first waiter, or is free. -/
theorem fair_unlock (h : (mutex m).Fair g) (hm : (who, WaitKind.plain) ∈ g.holders) :
    (mutex m.unlock.2).Fair (holdAll m.unlock.1.toList (drop who .plain g)) := by
  obtain ⟨hown, hw, hk⟩ := h
  -- the mutex had one holder, and it is the one that lets go
  have hg : g.holders.erase (who, .plain) = [] := by
    rcases hown with ⟨-, hg⟩ | ⟨c, -, hg⟩
    · rw [hg] at hm
      contradiction
    · rw [hg] at hm ⊢
      rw [mem_singleton.mp hm, List.erase_cons_head]
  unfold KRawMutex.unlock
  -- it becomes free, or the first waiter owns it at once
  cases hq : m.waiters with
  | nil =>
    refine ⟨inl ⟨rfl, ?_⟩, fun hne => absurd rfl hne, nofun⟩
    simp [holdAll, drop, hg]
  | cons n l =>
    obtain ⟨hkind, hpid, hlt⟩ := hk n (by rw [hq]; exact .head l)
    refine ⟨inr ⟨n.who, ?_, ?_⟩, fun _ => ?_, fun x hx => hk x (by rw [hq]; exact .tail n hx)⟩
    · dsimp only
      rw [Nat.mod_eq_of_lt hlt, hpid]
    · simp [holdAll, drop, hg, hkind]
    · dsimp only
      rw [Nat.mod_eq_of_lt hlt]
      exact Nat.succ_ne_zero _

/-- A reader/writer lock, but for the rule about waiters. -/
def Shares (g : Ledger) (l : KRawRwLock) : Prop :=
  (l.writer = true ∧ l.readers = 0 ∧ (∃ c, g.holders = [(c, .writer)]) ∨
    l.writer = false ∧ l.readers = g.holders.length ∧ ∀ e ∈ g.holders, e.2 = .reader) ∧
    ∀ x ∈ l.waiters, x.kind ≠ .plain

/-- A free reader-writer lock is given to one more holder. -/
theorem fair_give (h : (rwlock l).Fair g)
    (hk : kind ≠ .plain) (hfree : l.free kind = true) (who : Context)
    (hok : kind = .reader → l.readers + 1 < 2 ^ 32) :
    (rwlock (l.give kind)).Fair (hold who kind g) := by
  obtain ⟨hown, hw, hkinds⟩ := h
  cases kind with
  | plain => contradiction
  | reader =>
    -- a reader gets in beside others only while nobody waits
    simp only [KRawRwLock.free, Bool.and_eq_true, Bool.not_eq_true', List.isEmpty_iff] at hfree
    have hmod := Nat.mod_eq_of_lt (hok rfl)
    rcases hown with ⟨hwr, -⟩ | ⟨hwr, hr, hall⟩
    · rw [hfree.1] at hwr
      contradiction
    refine ⟨inr ⟨hwr, ?_, ?_⟩, fun hne => absurd hfree.2 hne, hkinds⟩
    · rw [hold, length_cons, ← hr]
      exact hmod
    intro e he
    rcases mem_cons.mp he with rfl | he
    · rfl
    · exact hall e he
  | writer =>
    simp only [KRawRwLock.free, Bool.and_eq_true, Bool.not_eq_true', beq_iff_eq] at hfree
    rcases hown with ⟨hwr, -⟩ | ⟨hwr, hr, hall⟩
    · rw [hfree.1] at hwr
      contradiction
    · have hnil : g.holders = [] := List.length_eq_zero_iff.mp (hr.symm.trans hfree.2)
      refine ⟨inl ⟨rfl, hfree.2, who, ?_⟩, fun _ => inl rfl, hkinds⟩
      simp [hold, hnil]

theorem fair_acquire_queue (h : (rwlock l).Fair g)
    (hk : kind ≠ .plain) (hfree : l.free kind = false) (who : Context) :
    (rwlock { l with waiters := pushBack l.waiters (.new who kind) }).Fair g := by
  obtain ⟨hown, hw, hkinds⟩ := h
  refine ⟨hown, fun _ => ?_, fun x hx => ?_⟩
  -- somebody is in the way: a writer, readers, or those who wait already
  · cases kind with
    | plain => contradiction
    | reader =>
      simp only [KRawRwLock.free, Bool.and_eq_false_iff, Bool.not_eq_false',
        List.isEmpty_eq_false_iff] at hfree
      exact hfree.elim inl hw
    | writer =>
      simp only [KRawRwLock.free, Bool.and_eq_false_iff, Bool.not_eq_false',
        beq_eq_false_iff_ne] at hfree
      exact hfree
  · rcases mem_append.mp hx with hx | hx
    · exact hkinds x hx
    · rw [mem_singleton.mp hx]
      exact hk

theorem popReaders_spec (k : Nat) (l : List WaitNode) :
    (popReaders k l).1 ++ (popReaders k l).2 = l ∧ (∀ x ∈ (popReaders k l).1, x.kind = .reader) ∧
      (popReaders k l).1.length = min k (l.takeWhile (·.kind = .reader)).length := by
  induction k generalizing l with
  | zero => exact ⟨rfl, nofun, by simp [popReaders]⟩
  | succ k ih =>
    cases l with
    | nil => exact ⟨rfl, nofun, rfl⟩
    -- the loop stops at the first waiter that is no reader
    | cons n l =>
      unfold popReaders
      split
      · next hn =>
        obtain ⟨happ, hall, hlen⟩ := ih l
        refine ⟨?_, ?_, ?_⟩
        · rw [List.cons_append, happ]
        · intro x hx
          rcases mem_cons.mp hx with rfl | hx
          · exact hn
          · exact hall x hx
        · simp only [length_cons, List.takeWhile_cons, hn, decide_true, if_true]
          omega
      · next hn => exact ⟨rfl, nofun, by simp [hn]⟩

/-- A round of grants leaves nobody waiting for a free lock. -/
theorem fair_grantRound (h : Shares g l)
    (hok : l.readers + min 16 (l.waiters.takeWhile (·.kind = .reader)).length < 2 ^ 32) :
    (rwlock l.grantRound.2).Fair (holdAll l.grantRound.1.1 g) := by
  obtain ⟨hown, hkinds⟩ := h
  have hnone : holdAll [] g = g := rfl
  unfold KRawRwLock.grantRound
  -- a writer inside: nothing to give
  split
  · next hwr => exact ⟨hnone ▸ hown, fun _ => inl hwr, hkinds⟩
  · next hwr =>
    obtain ⟨hwr', hr, hall⟩ := hown.resolve_left fun hc => hwr hc.1
    split
    · next hq => exact ⟨hnone ▸ hown, fun hne => absurd hq hne, hkinds⟩
    · next n rest hq =>
      split
      · -- a writer first in line gets in if the last reader is out
        next hn =>
        split
        · next h0 =>
          have hnil : g.holders = [] := List.length_eq_zero_iff.mp (hr.symm.trans h0)
          refine ⟨inl ⟨rfl, h0, n.who, ?_⟩, fun _ => inl rfl,
            fun x hx => hkinds x (by rw [hq]; exact .tail n hx)⟩
          simp [holdAll, hnil, hn]
        · next h0 => exact ⟨hnone ▸ hown, fun _ => inr h0, hkinds⟩
      · -- otherwise up to 16 readers get in together
        next hn =>
        obtain ⟨happ, hrd, hlen⟩ := popReaders_spec 16 l.waiters
        have hpos : 0 < (popReaders 16 l.waiters).1.length := by
          rw [hlen, hq]
          simp [hn]
        rw [← hlen] at hok
        refine ⟨inr ⟨hwr', ?_, ?_⟩, fun _ => inr ?_, fun x hx => hkinds x ?_⟩
        · simp only [holdAll, List.length_append, List.length_map]
          rw [Nat.mod_eq_of_lt hok, hr, Nat.add_comm]
        · intro e he
          rcases mem_append.mp he with he | he
          · obtain ⟨x, hx, rfl⟩ := List.mem_map.mp he
            exact hrd x hx
          · exact hall e he
        · simp only [Nat.mod_eq_of_lt hok]
          omega
        · rw [← happ]
          exact List.mem_append_right _ hx
      · next hn => exact absurd hn (hkinds n (by rw [hq]; exact .head rest))

theorem shares_release (h : (rwlock l).Fair g) (hk : kind ≠ .plain) (hm : (who, kind) ∈ g.holders) :
    Shares (drop who kind g) (if kind = .reader then l.readRelease else l.writeRelease) := by
  obtain ⟨hown, -, hkinds⟩ := h
  rcases hown with ⟨hwr, hr, c, hg⟩ | ⟨hwr, hr, hall⟩
  · rw [hg, mem_singleton] at hm
    cases hm
    refine ⟨inr ⟨rfl, ?_, ?_⟩, hkinds⟩
    · simp only [drop, hg, List.erase_cons_head]
      exact hr
    · simp only [drop, hg, List.erase_cons_head]
      nofun
  · have hkr : kind = .reader := hall _ hm
    subst hkr
    refine ⟨inr ⟨hwr, ?_, ?_⟩, hkinds⟩
    · simp [KRawRwLock.readRelease, drop, List.length_erase_of_mem hm, hr]
    · intro e he
      exact hall e (List.mem_of_mem_erase he)

/-- A waiter gives up. -/
theorem fair_unlink {l : Lock} (h : l.Fair g) (who : Context) : (l.unlink who).Fair g := by
  have hne : ∀ {l : List WaitNode}, remove l who ≠ [] → l ≠ [] := by
    rintro l hr rfl
    exact hr rfl
  have hmem : ∀ {l : List WaitNode} {x}, x ∈ remove l who → x ∈ l :=
    fun hx => (List.mem_filter.mp hx).1
  cases l with
  | sema =>
    exact ⟨h.1, h.2.1, h.2.2.1, fun hr => h.2.2.2.1 (hne hr), fun x hx => h.2.2.2.2 x (hmem hx)⟩
  | mutex | rwlock => exact ⟨h.1, fun hr => h.2.1 (hne hr), fun x hx => h.2.2 x (hmem hx)⟩

end Fair

end Ksync

end Leandros.Sched
