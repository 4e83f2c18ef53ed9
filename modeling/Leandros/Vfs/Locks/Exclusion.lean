import Leandros.Vfs.Locks.Records

/-!
# Leandros.Vfs.Locks.Exclusion

**What the lock table guarantees.** Locks exclude each other, a granted request acts on its bytes
and on no others, a request that fails changes nothing, and nothing is granted that POSIX record
locking or `flock` would refuse (`locks_exclude`).

Four habits of the code stand against that. The key of a mounted file is not the file
(`locks_on_two_opens`). A record is dropped whole when a part of it is released or replaced.
`flock` and `fcntl` drop each other's records, and a lock of `flock` belongs to a process and not to
a description. And nothing checks `l_type`, the access mode of the descriptor or the operation
against what is allowed. Besides, a call that waits goes on with the key it has taken when the
descriptor is closed under it. The conditions of `Apt` leave out exactly these.

The argument is the same for a first try and for a later one: `Inv.fcntl` and `Inv.flock` are about one
try of a request on a descriptor that the table still has, and `Inv.attempt` is what `Inv.call` uses.
-/

namespace Leandros.Vfs.Locks

namespace State

/-! ### Conditions -/

/-- All locks on the file of a descriptor have its key. -/
def OneKey (s : State) (d : Fd) : Prop :=
  ∀ l, Live s.locks l → s.inodeOf l.key = d.file.inode → lockKeyOf d.file = some l.key

/-- A request that POSIX would not refuse out of hand. -/
def PosixValid (d : Fd) (f : Flock) (stop : Nat) : Prop :=
  (f.lType = 0 ∧ d.readable = true ∨ f.lType = fWrlck ∧ d.writable = true) ∧
    (stop = toEof ∨ stop ≤ 2 ^ 63)

/-- An operation that `flock` would not refuse out of hand. -/
def FlockValid (op : Nat) : Prop :=
  op = lockSh ∨ op = lockEx ∨ op = lockSh + lockNb ∨ op = lockEx + lockNb

structure SetApt (s : State) (d : Fd) (f : Flock) (start stop : Nat) : Prop where
  key : s.OneKey d
  /-- The caller's locks that the range meets lie inside it. -/
  whole : ∀ l, Live s.locks l → l.pid = d.pid → lockKeyOf d.file = some l.key →
    rangesOverlap l.start l.stop start stop = true → start ≤ l.start ∧ l.stop ≤ stop
  /-- The caller has no lock by `flock` on the file. -/
  bsd : ∀ i o m, some i = d.file.inode → s.bsd i o ≠ some (m, d.pid)
  valid : f.lType ≠ fUnlck → PosixValid d f stop

structure FlockApt (s : State) (d : Fd) (op : Nat) : Prop where
  key : s.OneKey d
  /-- The caller has no record lock on the file. -/
  posix : ∀ i b, some i = d.file.inode → s.posix i d.pid b = none
  /-- Nor one by `flock` through another description. -/
  bsd : ∀ i o m, some i = d.file.inode → s.bsd i o = some (m, d.pid) → o = d.ofd
  valid : op &&& lockUn = 0 → FlockValid op

/-- The condition on a request. -/
def RequestApt (s : State) (d : Fd) : Request → Prop
  | .fcntl cmd arg pos size => ∀ f start stop, arg = some f →
      resolveLockRange d.file pos size f = some (start, stop) →
      if cmd = .getlk then f.lType ≠ fUnlck else s.SetApt d f start stop
  | .flock op => s.FlockApt d op

/-- The condition on calls: one that waits still has its descriptor when it tries again. -/
def Apt (s : State) : Action → Prop
  | .close pid fd => ∀ d, s.find pid fd = some d → s.CloseApt d
  | .lock pid fd q _ => ∀ d, s.find pid fd = some d → s.RequestApt d q
  | .retry d q _ => d ∈ s.fds ∧ s.RequestApt d q
  | _ => True

/-! ### What is held and what would be refused -/

/-- Process `p` has a lock on byte `b` of a file. -/
def Holds (s : State) (i : Inode) (p b : Nat) (exclusive : Bool) : Prop :=
  ∃ l, Live s.locks l ∧ l.pid = p ∧ s.inodeOf l.key = some i ∧ l.start ≤ b ∧ b < l.stop ∧
    l.exclusive = exclusive

/-- POSIX record locking would refuse a lock on `[start, stop)`. -/
def PosixRefuses (s : State) (d : Fd) (f : Flock) (start stop : Nat) : Prop :=
  ¬ PosixValid d f stop ∨ ∃ i q b m, some i = d.file.inode ∧ q ≠ d.pid ∧ start ≤ b ∧ b < stop ∧
    s.posix i q b = some m ∧ (f.lType = fWrlck ∨ m = true)

/-- `flock` would refuse the operation. -/
def FlockRefuses (s : State) (d : Fd) (op : Nat) : Prop :=
  ¬ FlockValid op ∨ ∃ i o m p, some i = d.file.inode ∧ o ≠ d.ofd ∧ s.bsd i o = some (m, p) ∧
    (op &&& lockEx ≠ 0 ∨ m = true)

theorem Inv.exclude {s : State} (h : s.Inv) {i : Inode} {p q b : Nat} {e e' : Bool} (hne : p ≠ q)
    (hp : s.Holds i p b e) (hq : s.Holds i q b e') : e = false ∧ e' = false := by
  obtain ⟨l, hl, rfl, hi, hs, ht, rfl⟩ := hp
  obtain ⟨l', hl', rfl, hi', hs', ht', rfl⟩ := hq
  exact h.excl l l' hl hl' hne (hi.trans hi'.symm) (rangesOverlap_iff.mpr ⟨by omega, by omega⟩)

/-! ### fcntl -/

/-- The record that a request asks for. -/
def record (key : LockKey) (pid start stop : Nat) (exclusive : Bool) : LockRecord :=
  ⟨key, pid, start, stop, exclusive, true⟩

theorem overlapping_eq_true {key : LockKey} {pid start stop : Nat} {l : LockRecord} :
    overlapping key pid start stop l = true ↔
      l.key = key ∧ l.pid = pid ∧ rangesOverlap l.start l.stop start stop = true := by
  simp [overlapping, and_assoc]

/-- The records of others stay compatible with the new one. -/
theorem Inv.excl_set {s : State} {d : Fd} {key : LockKey} {start stop : Nat} {locks : List LockRecord}
    {mode : Option Bool} (h : s.Inv) (hd : d ∈ s.fds) (hk : lockKeyOf d.file = some key) (ha : s.OneKey d)
    (hlive : ∀ l, Live locks l → Live s.locks l ∨ ∃ e, mode = some e ∧ l = record key d.pid start stop e)
    (hno : ∀ e, mode = some e → NoConflict s.locks (record key d.pid start stop e)) :
    (∀ l, Live locks l → Live s.locks l ∨ ∃ d ∈ s.fds, d.pid = l.pid ∧ lockKeyOf d.file = some l.key) ∧
      ∀ l l', Live locks l → Live locks l' → l.pid ≠ l'.pid → s.inodeOf l.key = s.inodeOf l'.key →
        rangesOverlap l.start l.stop l'.start l'.stop = true → l.exclusive = false ∧ l'.exclusive = false := by
  -- an old record of another process on this inode has the same key, so the check saw it
  have hnew : ∀ l, Live s.locks l → ∀ e, mode = some e → l.pid ≠ d.pid →
      s.inodeOf l.key = s.inodeOf key → rangesOverlap l.start l.stop start stop = true →
      e = false ∧ l.exclusive = false := by
    intro l hl e he hne hi hover
    have hlk : lockKeyOf d.file = some l.key := ha l hl (hi.trans (h.inodeOf_key hd hk))
    exact hno e he l hl (Option.some.inj (hlk.symm.trans hk)) hne hover
  refine ⟨fun l hl => ?_, fun l l' hl hl' hne hi hover => ?_⟩
  · rcases hlive l hl with hl | ⟨e, -, rfl⟩
    · exact .inl hl
    · exact .inr ⟨d, hd, rfl, hk⟩
  -- the pair is old and old, old and new, new and old, or the new record twice
  · rcases hlive l hl with hl | ⟨e, he, rfl⟩ <;> rcases hlive l' hl' with hl' | ⟨e', he', rfl⟩
    · exact h.excl l l' hl hl' hne hi hover
    · exact (hnew l hl e' he' hne hi hover).symm
    · have hover' : rangesOverlap l'.start l'.stop start stop = true :=
        rangesOverlap_iff.mpr (rangesOverlap_iff.mp hover).symm
      exact hnew l' hl' e he hne.symm hi.symm hover'
    · exact absurd rfl hne

section Fcntl

variable {s : State} {d : Fd} {key : LockKey} {f : Flock} {start stop : Nat} {locks : List LockRecord}
  {mode : Option Bool} (h : s.Inv) (hk : lockKeyOf d.file = some key) (ha : s.SetApt d f start stop)
include h hk ha

section

variable (hd : d ∈ s.fds)
  (hlive : ∀ l, Live locks l ↔ Live s.locks l ∧ overlapping key d.pid start stop l = false ∨
    ∃ e, mode = some e ∧ l = record key d.pid start stop e)
include hd hlive

/-- What the caller holds after the request. -/
theorem Inv.holds_set (i : Inode) (q b : Nat) (e : Bool) :
    Holds { s with locks } i q b e ↔
      if some i = d.file.inode ∧ q = d.pid ∧ start ≤ b ∧ b < stop then mode = some e
      else s.Holds i q b e := by
  have hinode := h.inodeOf_key hd hk
  split
  · next hc =>
    obtain ⟨hi, rfl, hs, ht⟩ := hc
    constructor
    · rintro ⟨l, hl, hp, hli, hls, hlt, rfl⟩
      rcases (hlive l).mp hl with ⟨hl, ho⟩ | ⟨e, he, rfl⟩
      · -- Another record of the caller on this byte would have been dropped.
        have hlk : lockKeyOf d.file = some l.key := ha.key l hl (Eq.trans hli hi)
        have hlk' : l.key = key := Option.some.inj (hlk.symm.trans hk)
        have : overlapping key d.pid start stop l = true :=
          overlapping_eq_true.mpr ⟨hlk', hp, rangesOverlap_iff.mpr ⟨by omega, by omega⟩⟩
        rw [ho] at this
        contradiction
      · exact he
    · intro he
      exact ⟨record key d.pid start stop e, (hlive _).mpr (.inr ⟨e, he, rfl⟩), rfl,
        Eq.trans hinode hi.symm, hs, ht, rfl⟩
  · next hc =>
    constructor
    · rintro ⟨l, hl, hp, hli, hls, hlt, rfl⟩
      rcases (hlive l).mp hl with ⟨hl, -⟩ | ⟨e, -, rfl⟩
      · exact ⟨l, hl, hp, hli, hls, hlt, rfl⟩
      · exact absurd ⟨hli.symm.trans hinode, hp.symm, hls, hlt⟩ hc
    · rintro ⟨l, hl, hp, hli, hls, hlt, rfl⟩
      refine ⟨l, (hlive l).mpr (.inl ⟨hl, ?_⟩), hp, hli, hls, hlt, rfl⟩
      refine Bool.eq_false_of_not_eq_true fun ho => hc ?_
      -- a record of the caller that is dropped lies inside the range
      obtain ⟨rfl, hlp, hover⟩ := overlapping_eq_true.mp ho
      obtain ⟨hs, ht⟩ := ha.whole l hl hlp hk hover
      exact ⟨hli.symm.trans hinode, hp.symm.trans hlp, by omega, by omega⟩

theorem Inv.set (hno : ∀ e, mode = some e → NoConflict s.locks (record key d.pid start stop e)) :
    (({ s with locks } : State).setPosix d.file d.pid start stop mode).Inv := by
  have hinode := h.inodeOf_key hd hk
  obtain ⟨howned, hexcl⟩ := h.excl_set hd hk ha.key (fun l hl => ((hlive l).mp hl).imp_left And.left) hno
  refine h.withLocks howned hexcl (fun i p b m hm => ?_) fun i o m p hm => ?_
  · -- bytes of the new range have the new mode, the others what they had
    refine (h.holds_set hk ha hd hlive i p b m).mpr ?_
    split
    · next hc =>
      rw [if_pos hc] at hm
      exact hm
    · next hc =>
      rw [if_neg hc] at hm
      exact h.posix i p b m hm
  · -- the record that backs a lock by `flock` is not among those that went
    obtain ⟨hdesc, l, hl, hp, hi, hrest⟩ := h.bsd i o m p hm
    refine ⟨hdesc, l, (hlive l).mpr (.inl ⟨hl, ?_⟩), hp, hi, hrest⟩
    refine Bool.eq_false_of_not_eq_true fun ho => ?_
    obtain ⟨rfl, hlp, -⟩ := overlapping_eq_true.mp ho
    rw [← hp, hlp] at hm
    exact ha.bsd i o m (hi.symm.trans hinode) hm

end

/-- What is granted would be granted by POSIX. -/
theorem Inv.not_posixRefuses (hun : f.lType ≠ fUnlck)
    (hno : NoConflict s.locks (record key d.pid start stop (f.lType == fWrlck))) :
    ¬ s.PosixRefuses d f start stop := by
  rintro (hv | ⟨i, q, b, m, hi, hne, hs, ht, hm, hx⟩)
  · exact hv (ha.valid hun)
  obtain ⟨l, hl, rfl, hli, hls, hlt, rfl⟩ := h.posix i q b m hm
  have hlk : lockKeyOf d.file = some l.key := ha.key l hl (hli.trans hi)
  have hover : rangesOverlap l.start l.stop start stop = true :=
    rangesOverlap_iff.mpr ⟨by omega, by omega⟩
  obtain ⟨he, hle⟩ := hno l hl (Option.some.inj (hlk.symm.trans hk)) hne hover
  rcases hx with hx | hx
  · rw [hx] at he
    contradiction
  · rw [hle] at hx
    contradiction

end Fcntl

/-! ### flock -/

section Flock

variable {s : State} {d : Fd} {key : LockKey} {op : Nat} {locks : List LockRecord}
  (h : s.Inv) (hk : lockKeyOf d.file = some key) (ha : s.FlockApt d op)
include h hk ha

theorem Inv.setFlock (mode : Option Bool) (hd : d ∈ s.fds)
    (hlive : ∀ l, Live locks l ↔ Live s.locks l ∧ ¬ (l.key = key ∧ l.pid = d.pid) ∨
      ∃ e, mode = some e ∧ l = record key d.pid 0 toEof e)
    (hno : ∀ e, mode = some e → NoConflict s.locks (record key d.pid 0 toEof e)) :
    (({ s with locks } : State).setBsd d.file d.ofd (mode.map fun e => (e, d.pid))).Inv := by
  have hinode := h.inodeOf_key hd hk
  obtain ⟨howned,
    hexcl⟩ := h.excl_set hd hk ha.key (fun l hl => ((hlive l).mp hl).imp_left And.left) hno
  refine h.withLocks howned hexcl (fun i p b m hm => ?_) fun i o m p hm => ?_
  · -- the caller has no record lock on this inode, so those of others keep their records
    obtain ⟨l, hl, hp, hi, hrest⟩ := h.posix i p b m hm
    refine ⟨l, (hlive l).mpr (.inl ⟨hl, fun hx => ?_⟩), hp, hi, hrest⟩
    obtain ⟨rfl, hlp⟩ := hx
    rw [← hp, hlp, ha.posix i b (hi.symm.trans hinode)] at hm
    contradiction
  split at hm
  · next hc =>
    -- the new lock is backed by the new record
    obtain ⟨e, he, hep⟩ := Option.map_eq_some_iff.mp hm
    cases hep
    exact ⟨⟨d, hd, hc.2.symm⟩, record key d.pid 0 toEof m, (hlive _).mpr (.inr ⟨m, he, rfl⟩), rfl,
      hinode.trans hc.1.symm, rfl, rfl, rfl⟩
  · next hc =>
    -- a lock of another description keeps its record
    obtain ⟨hdesc, l, hl, hp, hi, hrest⟩ := h.bsd i o m p hm
    refine ⟨hdesc, l, (hlive l).mpr (.inl ⟨hl, fun hx => ?_⟩), hp, hi, hrest⟩
    obtain ⟨rfl, hlp⟩ := hx
    have hfile : some i = d.file.inode := hi.symm.trans hinode
    rw [← hp, hlp] at hm
    exact hc ⟨hfile, ha.bsd i o m hfile hm⟩

/-- What is granted would be granted by `flock`. -/
theorem Inv.not_flockRefuses (hun : op &&& lockUn = 0)
    (hno : NoConflict s.locks (record key d.pid 0 toEof (decide (op &&& lockEx ≠ 0)))) :
    ¬ s.FlockRefuses d op := by
  rintro (hv | ⟨i, o, m, p, hi, hne, hm, hx⟩)
  · exact hv (ha.valid hun)
  -- a lock that stands in the way has a record over the whole file, and the check met it
  obtain ⟨-, l, hl, hp, hli, hls, hlt, hle⟩ := h.bsd i o m p hm
  have hlk : lockKeyOf d.file = some l.key := ha.key l hl (hli.trans hi)
  have hpid : l.pid ≠ d.pid := by
    intro hx
    rw [← hp, hx] at hm
    exact hne (ha.bsd i o m hi hm)
  have hover : rangesOverlap l.start l.stop 0 toEof = true := by
    rw [hls, hlt]
    decide
  obtain ⟨he, hle'⟩ := hno l hl (Option.some.inj (hlk.symm.trans hk)) hpid hover
  rcases hx with hx | hx
  · exact absurd hx (of_decide_eq_false he)
  · rw [← hle, hle'] at hx
    contradiction

end Flock

/-! ### Calls -/

/-- All processes hold what they held before. -/
def Same (s s' : State) : Prop := ∀ i q b e, s'.Holds i q b e ↔ s.Holds i q b e

/-- What a try of a request does: without a grant nothing, and with one what was asked for, which the
owner of the lock's kind would have granted too. -/
def Does (s s' : State) (r : Reply) (d : Fd) : Request → Prop
  | .fcntl cmd arg pos size =>
    (r ≠ .ok ∨ cmd = .getlk → s.Same s') ∧
      (r = .ok → cmd ≠ .getlk → ∃ f start stop, arg = some f ∧
        resolveLockRange d.file pos size f = some (start, stop) ∧
        (∀ i q b e, s'.Holds i q b e ↔
          if some i = d.file.inode ∧ q = d.pid ∧ start ≤ b ∧ b < stop then
            f.lType ≠ fUnlck ∧ e = (f.lType == fWrlck)
          else s.Holds i q b e) ∧
        (f.lType ≠ fUnlck → ¬ s.PosixRefuses d f start stop))
  | .flock op => (r ≠ .ok → s.Same s') ∧ (r = .ok → op &&& lockUn = 0 → ¬ s.FlockRefuses d op)

/-- What a lock call does, the first time and each time it tries again. -/
def Effect (s s' : State) (r : Reply) : Action → Prop
  | .lock pid fd q _ =>
    (s.find pid fd = none → r ≠ .ok ∧ s.Same s') ∧ ∀ d, s.find pid fd = some d → s.Does s' r d q
  | .retry d q _ => s.Does s' r d q
  | _ => True

variable {r : Reply}

/-- A call that is refused, or told to wait. -/
theorem does_nothing (s : State) (waits : List (Fd × Request)) (hr : r ≠ .ok) (d : Fd) (q : Request) :
    s.Does { s with waits } r d q := by
  cases q with
  | fcntl => exact ⟨fun _ _ _ _ _ => Iff.rfl, fun h => absurd h hr⟩
  | flock => exact ⟨fun _ _ _ _ _ => Iff.rfl, fun h => absurd h hr⟩

/-- One try of a record lock. -/
theorem Inv.fcntl {s s' : State} (h : s.Inv) {d : Fd} (hd : d ∈ s.fds)
    {cmd : LockCmd} {arg : Option Flock} {pos size : Nat} {memory : Bool}
    (ha : s.RequestApt d (.fcntl cmd arg pos size))
    (hs : s.fcntl d cmd arg pos size memory = some (r, s')) :
    s'.Inv ∧ s.Does s' r d (.fcntl cmd arg pos size) := by
  obtain ⟨⟨reply, locks⟩, hx, hs⟩ := Option.map_eq_some_iff.mp hs
  rcases handleFcntlLock_cases hx with ⟨hne, rfl⟩ | ⟨key, f, start, stop, hk, rfl, hrange, rfl, hcase⟩
  · -- Nothing was granted.
    have hsame : (r, s') = (reply, s) := by
      rw [← hs]
      split
      · rw [if_neg fun hc => hne hc.1]
      · rfl
    cases hsame
    exact ⟨h, s.does_nothing s.waits hne d _⟩
  · rw [Option.bind_some, hrange, Option.map_some] at hs
    dsimp only at hs
    have hapt := ha f start stop rfl hrange
    have hcmd : cmd ≠ .getlk := by
      rintro rfl
      rcases hcase with ⟨hun, -⟩ | ⟨-, hc, -⟩
      · exact hapt hun
      · exact hc rfl
    rw [if_neg hcmd] at hapt
    rw [if_pos ⟨rfl, hcmd⟩] at hs
    cases hs
    set mode : Option Bool := if f.lType = fUnlck then none else some (f.lType == fWrlck) with hmode
    have hlive : ∀ l, Live locks l ↔ Live s.locks l ∧ overlapping key d.pid start stop l = false ∨
        ∃ e, mode = some e ∧ l = record key d.pid start stop e := by
      intro l
      rcases hcase with ⟨hun, hlive⟩ | ⟨hun, -, -, hlive⟩
      · rw [hmode, if_pos hun, hlive]
        simp
      · rw [hmode, if_neg hun, hlive]
        simp only [Option.some.injEq, exists_eq_left']
        rfl
    have hno : ∀ e, mode = some e → NoConflict s.locks (record key d.pid start stop e) := by
      intro e he
      rcases hcase with ⟨hun, -⟩ | ⟨hun, -, hno, -⟩
      · rw [hmode, if_pos hun] at he
        contradiction
      · rw [hmode, if_neg hun] at he
        rw [← Option.some.inj he]
        exact hno
    refine ⟨h.set hk hapt hd hlive hno, fun hx => ?_, fun _ _ =>
      ⟨f, start, stop, rfl, hrange, fun i q b e => ?_, fun hun => ?_⟩⟩
    · rcases hx with hx | hx
      · exact absurd rfl hx
      · exact absurd hx hcmd
    · have hiff := h.holds_set hk hapt hd hlive i q b e
      refine Iff.trans hiff ?_
      split
      · rw [hmode]
        split
        · next hun => simp [hun]
        · next hun => simp [hun, eq_comm]
      · exact Iff.rfl
    · exact h.not_posixRefuses hk hapt hun (hno _ (by rw [hmode, if_neg hun]))

/-- One try of a lock on the whole file. -/
theorem Inv.flock {s s' : State} (h : s.Inv) {d : Fd} (hd : d ∈ s.fds) {op : Nat} {memory : Bool}
    (hapt : s.FlockApt d op) (hs : s.flock d op memory = some (r, s')) :
    s'.Inv ∧ s.Does s' r d (.flock op) := by
  obtain ⟨⟨reply, locks⟩, hx, hs⟩ := Option.map_eq_some_iff.mp hs
  rcases handleFlock_cases hx with ⟨hne, rfl⟩ | ⟨key, hk, rfl, hcase⟩
  · rw [if_neg hne] at hs
    cases hs
    exact ⟨h, s.does_nothing s.waits hne d _⟩
  cases hs
  -- `LOCK_UN` releases, the two other operations set
  rcases hcase with ⟨hun, hlive⟩ | ⟨hun, hno, hlive⟩
  · rw [if_pos hun]
    have hinv := h.setFlock hk hapt none hd (fun l => by rw [hlive]; simp) nofun
    exact ⟨hinv, fun hx => absurd rfl hx, fun _ hx => absurd hx hun⟩
  rw [if_neg (not_not.mpr hun)]
  have hinv := h.setFlock hk hapt (some (decide (op &&& lockEx ≠ 0))) hd
    (fun l => by
      rw [hlive]
      simp only [Option.some.injEq, exists_eq_left']
      rfl)
    fun e he => by
      rw [← Option.some.inj he]
      exact hno
  exact ⟨hinv, fun hx => absurd rfl hx, fun _ _ => h.not_flockRefuses hk hapt hun hno⟩

/-- **One try of a request** on a descriptor that is open. -/
theorem Inv.attempt {s s' : State} (h : s.Inv) {d : Fd} (hd : d ∈ s.fds) {q : Request}
    {memory : Bool} (ha : s.RequestApt d q) (hs : s.attempt d memory q = some (r, s')) :
    s'.Inv ∧ s.Does s' r d q := by
  cases q with
  | fcntl => exact h.fcntl hd ha hs
  | flock => exact h.flock hd ha hs

/-- Every call keeps the invariant and has the effect it should have. -/
theorem Inv.call {s s' : State} (h : s.Inv) {a : Action} (ha : s.Apt a)
    (hs : s.call a = some (r, s')) : s'.Inv ∧ Effect s s' r a := by
  cases a with
  | «open» =>
    obtain ⟨t, ht, hst⟩ := Option.map_eq_some_iff.mp hs
    cases hst
    exact ⟨h.open' ht, trivial⟩
  | copy =>
    simp only [State.call, withFd] at hs
    split at hs
    · next d hf =>
      obtain ⟨t, ht, hst⟩ := Option.map_eq_some_iff.mp hs
      cases hst
      exact ⟨h.copy (find_some hf).1 ht, trivial⟩
    · cases hs
      exact ⟨h, trivial⟩
  | close =>
    simp only [State.call, withFd] at hs
    split at hs
    · next d hf =>
      cases hs
      exact ⟨h.close (find_some hf).1 (ha d hf), trivial⟩
    · cases hs
      exact ⟨h, trivial⟩
  | lock pid fd q =>
    simp only [State.call, withFd] at hs
    split at hs
    · next d hf =>
      -- the effect is about the one descriptor that the number names
      have hsome : (s.find pid fd = none → r ≠ .ok ∧ s.Same s') := fun hn => absurd (hf.symm.trans hn) nofun
      have hone : ∀ {d'}, s.find pid fd = some d' → d' = d := fun hd' => Option.some.inj (hd'.symm.trans hf)
      split at hs
      · next hgot =>
        rw [hs] at hgot
        obtain ⟨hinv, hdoes⟩ := h.attempt (find_some hf).1 (ha d hf) hgot
        exact ⟨hinv, hsome, fun d' hd' => hone hd' ▸ hdoes⟩
      · cases hs
        exact ⟨h.withWaits _, hsome, fun d' _ => s.does_nothing (r := .wait) _ nofun d' q⟩
    · next hf =>
      -- no such descriptor: EBADF
      cases hs
      exact ⟨h, fun _ => ⟨nofun, fun _ _ _ _ => Iff.rfl⟩, fun d' _ =>
        s.does_nothing (r := .err 9) s.waits nofun d' q⟩
  | retry d q =>
    -- a waiter tries its request again, with the descriptor it started with
    obtain ⟨-, hs⟩ := Option.ite_none_right_eq_some.mp hs
    split at hs
    · next hgot =>
      cases hs
      obtain ⟨hinv, hdoes⟩ := h.attempt ha.1 ha.2 hgot
      exact ⟨hinv.withWaits _, hdoes⟩
    · cases hs
      exact ⟨h, s.does_nothing (r := .wait) s.waits nofun d q⟩

theorem init_inv : init.Inv :=
  ⟨nofun, nofun, fun _ hl => absurd hl.1 nofun, fun _ _ hl => absurd hl.1 nofun, nofun, nofun⟩

/-- **Advisory locks.** In every run whose calls meet `Apt`: two processes never hold overlapping
locks of which one is exclusive; and a call fails and changes nothing, or it changes the lock state
of the caller's bytes in its range only, and neither POSIX nor `flock` would have refused it. -/
theorem locks_exclude {s : State} (hr : Reachable (· = init) Apt step s) :
    (∀ i p q b e e', p ≠ q → s.Holds i p b e → s.Holds i q b e' → e = false ∧ e' = false) ∧
      ∀ a r s', s.Apt a → s.call a = some (r, s') → Effect s s' r a := by
  have hinv : s.Inv := by
    refine hr.invariant ?_ fun t a t' hI hok hs => ?_
    · rintro _ rfl
      exact init_inv
    · obtain ⟨⟨r, t''⟩, hc, rfl⟩ := Option.map_eq_some_iff.mp hs
      exact (hI.call hok hc).1
  exact ⟨fun _ _ _ _ _ _ hne hp hq => hinv.exclude hne hp hq, fun _ _ _ ha hs => (hinv.call ha hs).2⟩

/-! ### Concrete runs -/

/-- Descriptor 3 of process `pid`, open for reading and writing. -/
def descriptor (pid : Nat) (file : File) : Fd := ⟨pid, 3, file, pid, true, true⟩

/-- `F_SETLK` on the first ten bytes. -/
def setlkTen (pid : Nat) (lType : Int) : Action :=
  .lock pid 3 (.fcntl .setlk (some ⟨lType, 0, 0, 10⟩) 0 0) true

/-- A process locks ten bytes of a file and unlocks them. -/
theorem locks_exclude_lock_unlock :
    ∃ s s' : State, Reachable (· = init) Apt step s ∧ s.Holds (.tmp 0) 1 5 true ∧
      s.call (setlkTen 1 fUnlck) = some (.ok, s') ∧ Effect s s' .ok (setlkTen 1 fUnlck) := by
  let d := descriptor 1 (.tmp 0)
  let s₁ : State := { init with fds := [d] }
  let r : LockRecord := ⟨.tmp 0, 1, 0, 10, true, true⟩
  let s₂ : State := ({ s₁ with locks := [r] } : State).setPosix d.file 1 0 10 (some true)
  let s₃ : State := ({ s₂ with locks := [.empty] } : State).setPosix d.file 1 0 10 none
  have h₀ : Reachable (· = init) Apt step init := .start rfl
  have h₁ : Reachable (· = init) Apt step s₁ := h₀.next (a := .open d) trivial rfl
  have hno : ∀ l, ¬ Live s₁.locks l := fun l hl => absurd hl.1 nofun
  have hone : ∀ l, Live s₂.locks l → l = r := fun l hl => List.mem_singleton.mp hl.1
  -- The range of both calls is `[0, 10)`.
  have hrange : ∀ lType x, resolveLockRange (.tmp 0) 0 0 ⟨lType, 0, 0, 10⟩ = some x → x = (0, 10) :=
    fun _ _ hx => (Option.some.inj hx).symm
  have ha₁ : s₁.Apt (setlkTen 1 fWrlck) := by
    intro d' hd' f start stop hf hx
    cases hd'
    cases hf
    obtain ⟨rfl, rfl⟩ := Prod.mk.inj (hrange _ _ hx)
    exact ⟨fun l hl => absurd hl (hno l), fun l hl => absurd hl (hno l), nofun,
      fun _ => ⟨.inr ⟨rfl, rfl⟩, .inr (by decide)⟩⟩
  have h₂ : Reachable (· = init) Apt step s₂ := h₁.next ha₁ rfl
  have ha₂ : s₂.Apt (setlkTen 1 fUnlck) := by
    intro d' hd' f start stop hf hx
    cases hd'
    cases hf
    obtain ⟨rfl, rfl⟩ := Prod.mk.inj (hrange _ _ hx)
    refine ⟨fun l hl _ => ?_, fun l hl _ _ _ => ?_, nofun, fun hx => absurd rfl hx⟩
    · rw [hone l hl]
      rfl
    · rw [hone l hl]
      decide
  have hcall : s₂.call (setlkTen 1 fUnlck) = some (.ok, s₃) := rfl
  exact ⟨s₂, s₃, h₂, ⟨r, ⟨.head _, rfl⟩, rfl, rfl, by decide, by decide, rfl⟩, hcall,
    (locks_exclude h₂).2 _ _ _ ha₂ hcall⟩

/-- Two processes open inode 7 of a mounted volume, each with a slot of its own, and both get a
write lock on the first ten bytes. -/
theorem locks_on_two_opens :
    ∃ s : State, Reachable (· = init) (fun _ _ => True) step s ∧ s.Holds (.mount 1 7) 1 5 true ∧
      s.Holds (.mount 1 7) 2 5 true := by
  have hrun : ((replay (fun _ _ => True) step init [.open (descriptor 1 (.mount 1 7 0)),
      .open (descriptor 2 (.mount 1 7 1)), setlkTen 1 fWrlck, setlkTen 2 fWrlck]).any fun s =>
        decide (⟨.mount 1 0, 1, 0, 10, true, true⟩ ∈ s.locks ∧
          ⟨.mount 1 1, 2, 0, 10, true, true⟩ ∈ s.locks ∧
          s.inodeOf (.mount 1 0) = some (.mount 1 7) ∧ s.inodeOf (.mount 1 1) = some (.mount 1 7))) =
      true := by
    decide +kernel
  obtain ⟨s, hs, hobs⟩ := Option.any_eq_true _ _ |>.mp hrun
  obtain ⟨h₁, h₂, hi₁, hi₂⟩ := of_decide_eq_true hobs
  have h₀ : Reachable (· = init) (fun _ _ => True) step init := .start rfl
  exact ⟨s, h₀.replay hs, ⟨_, ⟨h₁, rfl⟩, rfl, hi₁, by decide, by decide, rfl⟩,
    ⟨_, ⟨h₂, rfl⟩, rfl, hi₂, by decide, by decide, rfl⟩⟩

end State

end Leandros.Vfs.Locks
