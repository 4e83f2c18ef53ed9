import Leandros.Vfs.Locks.Model

/-!
# Leandros.Vfs.Locks.Records

**The records in use decide everything** (`Live`), and each call is described by what it does to them
(`handleFcntlLock_cases`, `handleFlock_cases`). The invariant relates them to the files they stand
for and to the locks that POSIX and `flock` would have. Descriptors that come and go keep it, with
one exception: closing a descriptor drops a lock of `flock` that another descriptor still has
(`CloseApt`).

The source has one vector of records for both kinds of lock. A call drops the caller's records that
meet its range and then adds one, so a description of the records after it is a disjunction: an
old record that was not dropped, or the new one. `NoConflict` is what the search for a
conflict has established by then.
-/

namespace Leandros.Vfs.Locks

open Function (update_of_ne update_self)

/-! ### Records in use -/

def Live (locks : List LockRecord) (l : LockRecord) : Prop := l ∈ locks ∧ l.inUse = true

variable {locks : List LockRecord} {l r : LockRecord} {memory : Bool} {reply : Reply}

theorem live_clearWhere {p : LockRecord → Bool} :
    Live (clearWhere p locks) l ↔ Live locks l ∧ p l = false := by
  constructor
  · rintro ⟨hm, hu⟩
    obtain ⟨x, hx, rfl⟩ := List.mem_map.mp hm
    split at hu
    · contradiction
    · next hc =>
      rw [if_neg hc]
      refine ⟨⟨hx, hu⟩, ?_⟩
      rw [hu] at hc
      exact Bool.eq_false_of_not_eq_true hc
  · rintro ⟨⟨hm, hu⟩, hp⟩
    refine ⟨List.mem_map.mpr ⟨l, hm, ?_⟩, hu⟩
    rw [hp, Bool.and_false, if_neg Bool.false_ne_true]

variable {locks' : List LockRecord}

theorem live_replaceFree (hr : r.inUse = true)
    (h : replaceFree r locks = some locks') : Live locks' l ↔ Live locks l ∨ l = r := by
  induction locks generalizing locks' with
  | nil => contradiction
  | cons x ls ih =>
    rw [replaceFree] at h
    split at h
    -- the entry is in use, so the free one is further on
    · obtain ⟨ls', hls, rfl⟩ := Option.map_eq_some_iff.mp h
      have := ih hls
      simp only [Live, List.mem_cons] at this ⊢
      tauto
    · next hx =>
      -- the free entry: what it held was not live
      cases h
      simp only [Live, List.mem_cons]
      constructor
      · rintro ⟨rfl | hm, hu⟩
        · exact .inr rfl
        · exact .inl ⟨.inr hm, hu⟩
      · rintro (⟨rfl | hm, hu⟩ | rfl)
        · exact absurd hu hx
        · exact ⟨.inr hm, hu⟩
        · exact ⟨.inl rfl, hr⟩

theorem inUse_of_replaceFree_eq_none
    (h : replaceFree r locks = none) : ∀ l ∈ locks, l.inUse = true := by
  induction locks with
  | nil => nofun
  | cons x ls ih =>
    rw [replaceFree] at h
    split at h
    · next hx =>
      intro l hl
      rcases List.mem_cons.mp hl with rfl | hl
      · exact hx
      · exact ih (Option.map_eq_none_iff.mp h) l hl
    · contradiction

theorem live_lockInsert (hr : r.inUse = true)
    (h : lockInsert locks r memory = some locks') : Live locks' l ↔ Live locks l ∨ l = r := by
  unfold lockInsert at h
  split at h
  · next hf =>
    -- a free entry is written over; without one the vector grows
    cases h
    exact live_replaceFree hr hf
  split at h
  · contradiction
  cases h
  simp only [Live, List.mem_append, List.mem_singleton]
  constructor
  · rintro ⟨hm | rfl, hu⟩
    · exact .inl ⟨hm, hu⟩
    · exact .inr rfl
  · rintro (⟨hm, hu⟩ | rfl)
    · exact ⟨.inl hm, hu⟩
    · exact ⟨.inr rfl, hr⟩

theorem inUse_of_lockInsert_eq_none
    (h : lockInsert locks r memory = none) : ∀ l ∈ locks, l.inUse = true := by
  unfold lockInsert at h
  split at h
  · contradiction
  · next hf => exact inUse_of_replaceFree_eq_none hf

/-- A record that is dropped is a free one. -/
theorem clearWhere_of_inUse {p : LockRecord → Bool}
    (h : ∀ l ∈ clearWhere p locks, l.inUse = true) : clearWhere p locks = locks := by
  refine (List.map_congr_left fun l hl => ?_).trans (List.map_id locks)
  have hu := h _ (List.mem_map_of_mem hl)
  split at hu
  · contradiction
  · next hc => exact if_neg hc

/-! ### Calls -/

theorem rangesOverlap_iff {a b c d : Nat} : rangesOverlap a b c d = true ↔ a < d ∧ c < b := by
  simp [rangesOverlap]

/-- No lock of another process stands against a request. -/
def NoConflict (locks : List LockRecord) (r : LockRecord) : Prop :=
  ∀ l, Live locks l → l.key = r.key → l.pid ≠ r.pid →
    rangesOverlap l.start l.stop r.start r.stop = true → r.exclusive = false ∧ l.exclusive = false

theorem noConflict_of_findConflict
    (h : findConflict locks r.key r.pid r.start r.stop r.exclusive = none) : NoConflict locks r := by
  intro l hl hkey hpid hover
  have hn := List.find?_eq_none.mp h l hl.1
  simpa [hl.2, hkey, hpid, hover] using hn

theorem grant_cases (hr : r.inUse = true) {drop : LockRecord → Bool}
    (h : grant locks r drop memory = some (reply, locks')) : reply = .err 37 ∧ locks' = locks ∨
      reply = .ok ∧ NoConflict locks r ∧
        ∀ l, Live locks' l ↔ Live locks l ∧ drop l = false ∨ l = r := by
  unfold grant at h
  split at h
  · contradiction
  rename_i hc
  dsimp only at h
  split at h
  · next hins =>
    cases h
    refine .inr ⟨rfl, noConflict_of_findConflict hc, fun l => ?_⟩
    rw [live_lockInsert hr hins, live_clearWhere]
  · next hins =>
    -- There was no free record, so that none was dropped.
    cases h
    exact .inl ⟨rfl, clearWhere_of_inUse (inUse_of_lockInsert_eq_none hins)⟩

theorem orElse_cases {wait : Bool}
    {g : Option (Reply × List LockRecord)} (h : orElse locks wait g = some (reply, locks')) :
    g = some (reply, locks') ∨ reply = .err 11 ∧ locks' = locks := by
  cases g with
  | some => exact .inl h
  | none =>
    rw [orElse] at h
    split at h
    · contradiction
    · cases h
      exact .inr ⟨rfl, rfl⟩

/-- What `fcntl` does: nothing; or it drops the records of the caller that overlap the range, and
adds one for the range unless it unlocks. -/
theorem handleFcntlLock_cases {pid pos size : Nat} {file : File}
    {cmd : LockCmd} {arg : Option Flock}
    (h : handleFcntlLock locks pid file cmd arg pos size memory = some (reply, locks')) :
    reply ≠ .ok ∧ locks' = locks ∨ ∃ key f start stop, lockKeyOf file = some key ∧ arg = some f ∧
        resolveLockRange file pos size f = some (start, stop) ∧ reply = .ok ∧ (f.lType = fUnlck ∧
            (∀ l, Live locks' l ↔ Live locks l ∧ overlapping key pid start stop l = false) ∨
          f.lType ≠ fUnlck ∧ cmd ≠ .getlk ∧
            NoConflict locks ⟨key, pid, start, stop, f.lType == fWrlck, true⟩ ∧
            ∀ l, Live locks' l ↔ Live locks l ∧ overlapping key pid start stop l = false ∨
              l = ⟨key, pid, start, stop, f.lType == fWrlck, true⟩) := by
  -- every refusal hands the records back as they were
  have hfail : ∀ {r : Reply}, some (r, locks) = some (reply, locks') → r ≠ .ok →
      reply ≠ .ok ∧ locks' = locks := by
    intro r he hr
    cases he
    exact ⟨hr, rfl⟩
  unfold handleFcntlLock at h
  split at h
  · exact .inl (hfail h nofun)
  · next key hkey =>
    split at h
    · exact .inl (hfail h nofun)
    · next f =>
      split at h
      · exact .inl (hfail h nofun)
      · next start stop hrange =>
        dsimp only at h
        split at h
        · next hun =>
          -- `F_UNLCK` drops what the range meets
          cases h
          exact .inr ⟨key, f, start, stop, hkey, rfl, hrange, rfl,
            .inl ⟨hun, fun l => live_clearWhere⟩⟩
        · next hun =>
          split at h
          · -- `F_GETLK` only reports
            split at h
            · exact .inl (hfail h nofun)
            · exact .inl (hfail h nofun)
          · next hcmd =>
            -- the rest asks for a lock: granted, in conflict, or out of memory
            rcases orElse_cases h with hg | ⟨rfl, rfl⟩
            · rcases grant_cases rfl hg with ⟨rfl, rfl⟩ | ⟨rfl, hno, hlive⟩
              · exact .inl ⟨nofun, rfl⟩
              · exact .inr ⟨key, f, start, stop, hkey, rfl, hrange, rfl,
                  .inr ⟨hun, hcmd, hno, hlive⟩⟩
            · exact .inl ⟨nofun, rfl⟩

/-- What `flock` does: nothing; or it drops the records of the caller for the file, and adds one for
the whole file unless it unlocks. -/
theorem handleFlock_cases {pid op : Nat} {file : File}
    (h : handleFlock locks pid file op memory = some (reply, locks')) :
    reply ≠ .ok ∧ locks' = locks ∨ ∃ key, lockKeyOf file = some key ∧ reply = .ok ∧
        (op &&& lockUn ≠ 0 ∧ (∀ l, Live locks' l ↔ Live locks l ∧ ¬ (l.key = key ∧ l.pid = pid)) ∨
          op &&& lockUn = 0 ∧ NoConflict locks ⟨key, pid, 0, toEof, decide (op &&& lockEx ≠ 0), true⟩ ∧
            ∀ l, Live locks' l ↔ Live locks l ∧ ¬ (l.key = key ∧ l.pid = pid) ∨
              l = ⟨key, pid, 0, toEof, decide (op &&& lockEx ≠ 0), true⟩) := by
  have hdrop : ∀ key, ∀ l : LockRecord, ((l.key == key) && (l.pid == pid)) = false ↔
      ¬ (l.key = key ∧ l.pid = pid) := by
    intro key l
    rw [← Bool.not_eq_true, Bool.and_eq_true, beq_iff_eq, beq_iff_eq]
  unfold handleFlock at h
  split at h
  · cases h
    exact .inl ⟨nofun, rfl⟩
  · next key hkey =>
    split at h
    · next hun =>
      cases h
      -- `LOCK_UN`
      refine .inr ⟨key, hkey, rfl, .inl ⟨hun, fun l => ?_⟩⟩
      rw [releaseLocks, live_clearWhere, hdrop]
    · next hun =>
      dsimp only at h
      split at h
      · cases h
        exact .inl ⟨nofun, rfl⟩
      -- the caller's own records go before the new one is put in
      rcases orElse_cases h with hg | ⟨rfl, rfl⟩
      · rcases grant_cases rfl hg with ⟨rfl, rfl⟩ | ⟨rfl, hno, hlive⟩
        · exact .inl ⟨nofun, rfl⟩
        · refine .inr ⟨key, hkey, rfl, .inr ⟨not_not.mp hun, hno, fun l => ?_⟩⟩
          rw [hlive, hdrop]
      · exact .inl ⟨nofun, rfl⟩

/-! ### The invariant -/

namespace State

variable {s : State} {d : Fd}

theorem find_some {pid fd : Nat} (h : s.find pid fd = some d) :
    d ∈ s.fds ∧ d.pid = pid ∧ d.fd = fd := by
  have hp := List.find?_some h
  exact ⟨List.mem_of_find?_eq_some h, of_decide_eq_true hp⟩

theorem find_none {pid fd : Nat} (h : s.find pid fd = none) (hd : d ∈ s.fds) :
    ¬ (d.pid = pid ∧ d.fd = fd) := by
  have := List.find?_eq_none.mp h d hd
  simpa using this

structure Inv (s : State) : Prop where
  fds : ∀ d ∈ s.fds, ∀ d' ∈ s.fds, d.pid = d'.pid → d.fd = d'.fd → d = d'
  slots : ∀ d ∈ s.fds, ∀ port ino fileId, d.file = .mount port ino fileId → s.slots port fileId = some ino
  owned : ∀ l, Live s.locks l → ∃ d ∈ s.fds, d.pid = l.pid ∧ lockKeyOf d.file = some l.key
  excl : ∀ l l', Live s.locks l → Live s.locks l' → l.pid ≠ l'.pid → s.inodeOf l.key = s.inodeOf l'.key →
    rangesOverlap l.start l.stop l'.start l'.stop = true → l.exclusive = false ∧ l'.exclusive = false
  posix : ∀ i p b m, s.posix i p b = some m → ∃ l, Live s.locks l ∧ l.pid = p ∧
    s.inodeOf l.key = some i ∧ l.start ≤ b ∧ b < l.stop ∧ l.exclusive = m
  bsd : ∀ i o m p, s.bsd i o = some (m, p) → (∃ d ∈ s.fds, d.ofd = o) ∧ ∃ l, Live s.locks l ∧
    l.pid = p ∧ s.inodeOf l.key = some i ∧ l.start = 0 ∧ l.stop = toEof ∧ l.exclusive = m

/-- Who waits is of no concern. -/
theorem Inv.withWaits (h : s.Inv) (waits : List (Fd × Request)) : ({ s with waits } : State).Inv :=
  { h with }

/-- The key of a descriptor stands for its file. -/
theorem inodeOf_of_slots {file : File} {key : LockKey} (hk : lockKeyOf file = some key)
    (hslot : ∀ port ino fileId, file = .mount port ino fileId → s.slots port fileId = some ino) :
    s.inodeOf key = file.inode := by
  cases file with
  | tmp =>
    cases hk
    rfl
  | mount port ino fileId =>
    cases hk
    rw [inodeOf, hslot port ino fileId rfl]
    rfl
  | other => contradiction

theorem Inv.inodeOf_key (h : s.Inv) (hd : d ∈ s.fds) {key : LockKey}
    (hk : lockKeyOf d.file = some key) : s.inodeOf key = d.file.inode :=
  inodeOf_of_slots hk (h.slots d hd)

/-- The records change, the files do not: what is left to show. -/
theorem Inv.withLocks (h : s.Inv) {locks : List LockRecord}
    {posix : Inode → Nat → Nat → Option Bool} {bsd : Inode → Nat → Option (Bool × Nat)}
    (howned : ∀ l, Live locks l → Live s.locks l ∨ ∃ d ∈ s.fds, d.pid = l.pid ∧ lockKeyOf d.file = some l.key)
    (hexcl : ∀ l l', Live locks l → Live locks l' → l.pid ≠ l'.pid → s.inodeOf l.key = s.inodeOf l'.key →
      rangesOverlap l.start l.stop l'.start l'.stop = true → l.exclusive = false ∧ l'.exclusive = false)
    (hposix : ∀ i p b m, posix i p b = some m → ∃ l, Live locks l ∧ l.pid = p ∧
      s.inodeOf l.key = some i ∧ l.start ≤ b ∧ b < l.stop ∧ l.exclusive = m)
    (hbsd : ∀ i o m p, bsd i o = some (m, p) → (∃ d ∈ s.fds, d.ofd = o) ∧ ∃ l, Live locks l ∧
      l.pid = p ∧ s.inodeOf l.key = some i ∧ l.start = 0 ∧ l.stop = toEof ∧ l.exclusive = m) :
    ({ s with locks, posix, bsd } : State).Inv :=
  ⟨h.fds, h.slots, fun l hl => (howned l hl).elim (h.owned l) id, hexcl, hposix, hbsd⟩

/-! ### Descriptors -/

/-- A new descriptor has a number of its own. -/
theorem Inv.fds_cons (h : s.Inv) (hfree : s.find d.pid d.fd = none) :
    ∀ a ∈ d :: s.fds, ∀ b ∈ d :: s.fds, a.pid = b.pid → a.fd = b.fd → a = b := by
  intro a ha b hb hp hfd
  rcases List.mem_cons.mp ha with rfl | ha' <;> rcases List.mem_cons.mp hb with rfl | hb'
  · rfl
  · exact absurd ⟨hp.symm, hfd.symm⟩ (find_none hfree hb')
  · exact absurd ⟨hp, hfd⟩ (find_none hfree ha')
  · exact h.fds a ha' b hb' hp hfd

/-- The invariant with one more descriptor. -/
theorem Inv.open' {s' : State} (h : s.Inv) (hs : s.open' d = some s') : s'.Inv := by
  obtain ⟨⟨hfree, hofd, hslot⟩, rfl⟩ := guard_eq_some hs
  rw [Option.isNone_iff_eq_none] at hfree
  -- The slot was free, so that the files of all keys in use are as they were.
  have hslots : ∀ d' ∈ s.fds, ∀ port ino fileId, d'.file = .mount port ino fileId →
      s.takeSlot d.file port fileId = some ino := by
    intro d' hd' port ino fileId hf
    have hold := h.slots d' hd' port ino fileId hf
    cases hdf : d.file with
    | tmp | other => exact hold
    | mount port' ino' fileId' =>
      rw [hdf, slotFree, Option.isNone_iff_eq_none] at hslot
      rw [takeSlot]
      by_cases hp : port = port'
      · subst hp
        rw [update_self]
        by_cases hi : fileId = fileId'
        · subst hi
          rw [hslot] at hold
          contradiction
        · rwa [update_of_ne hi]
      · rwa [update_of_ne hp]
  have hinode : ∀ l, Live s.locks l →
      State.inodeOf { s with fds := d :: s.fds, slots := s.takeSlot d.file } l.key = s.inodeOf l.key := by
    intro l hl
    obtain ⟨d', hd', -, hk⟩ := h.owned l hl
    exact (inodeOf_of_slots hk (hslots d' hd')).trans (h.inodeOf_key hd' hk).symm
  refine ⟨h.fds_cons hfree, ?_, fun l hl => ?_, fun l l' hl hl' hne hi => ?_, fun i p b m hm => ?_,
    fun i o m p hm => ?_⟩
  · intro a ha port ino fileId hf
    rcases List.mem_cons.mp ha with rfl | ha
    · dsimp only
      rw [hf, takeSlot, update_self, update_self]
    · exact hslots a ha port ino fileId hf
  · obtain ⟨d', hd', hrest⟩ := h.owned l hl
    exact ⟨d', .tail _ hd', hrest⟩
  · rw [hinode l hl, hinode l' hl'] at hi
    exact h.excl l l' hl hl' hne hi
  · obtain ⟨l, hl, hp, hi, hrest⟩ := h.posix i p b m hm
    exact ⟨l, hl, hp, (hinode l hl).trans hi, hrest⟩
  · obtain ⟨⟨d', hd', ho⟩, l, hl, hp, hi, hrest⟩ := h.bsd i o m p hm
    exact ⟨⟨d', .tail _ hd', ho⟩, l, hl, hp, (hinode l hl).trans hi, hrest⟩

theorem Inv.copy {s' : State} (h : s.Inv) (hd : d ∈ s.fds) {pid fd : Nat}
    (hs : s.copy d pid fd = some s') : s'.Inv := by
  obtain ⟨hfree, rfl⟩ := guard_eq_some hs
  rw [Option.isNone_iff_eq_none] at hfree
  refine ⟨h.fds_cons hfree, ?_, fun l hl => ?_, h.excl, h.posix, fun i o m p hm => ?_⟩
  · intro a ha port ino fileId hf
    rcases List.mem_cons.mp ha with rfl | ha
    · exact h.slots d hd port ino fileId hf
    · exact h.slots a ha port ino fileId hf
  · obtain ⟨d', hd', hrest⟩ := h.owned l hl
    exact ⟨d', .tail _ hd', hrest⟩
  · obtain ⟨⟨d', hd', ho⟩, hrest⟩ := h.bsd i o m p hm
    exact ⟨⟨d', .tail _ hd', ho⟩, hrest⟩

theorem live_close {l : LockRecord} :
    Live (s.close d).locks l ↔ Live s.locks l ∧ ¬ (lockKeyOf d.file = some l.key ∧ l.pid = d.pid) := by
  unfold close
  cases hk : lockKeyOf d.file with
  | none => simp
  | some =>
    dsimp only
    rw [releaseLocks, live_clearWhere, ← Bool.not_eq_true, Bool.and_eq_true, beq_iff_eq, beq_iff_eq,
      Option.some.injEq]
    constructor
    · rintro ⟨hl, hn⟩
      exact ⟨hl, fun hx => hn ⟨hx.1.symm, hx.2⟩⟩
    · rintro ⟨hl, hn⟩
      exact ⟨hl, fun hx => hn ⟨hx.1.symm, hx.2⟩⟩

/-- A lock by `flock` that the caller has on the file goes with the descriptor: it belongs to its
description, and no other descriptor names that. -/
def CloseApt (s : State) (d : Fd) : Prop :=
  ∀ i o m, s.bsd i o = some (m, d.pid) → some i = d.file.inode →
    o = d.ofd ∧ ∀ d' ∈ s.fds, d'.ofd = o → d'.pid = d.pid ∧ d'.fd = d.fd

/-- Closing a descriptor drops the records of its process on the file. -/
theorem Inv.close (h : s.Inv) (hd : d ∈ s.fds) (hapt : s.CloseApt d) : (s.close d).Inv := by
  have hmem : ∀ {d'}, d' ∈ (s.close d).fds ↔ d' ∈ s.fds ∧ ¬ (d'.pid = d.pid ∧ d'.fd = d.fd) := by
    intro d'
    simp only [State.close, List.mem_filter, decide_eq_true_eq]
  -- A lock that is left is owned by a descriptor that is left.
  have howned : ∀ l, Live (s.close d).locks l →
      ∃ d' ∈ (s.close d).fds, d'.pid = l.pid ∧ lockKeyOf d'.file = some l.key := by
    intro l hl
    obtain ⟨hl, hn⟩ := live_close.mp hl
    obtain ⟨d', hd', hp, hk⟩ := h.owned l hl
    refine ⟨d', hmem.mpr ⟨hd', fun hx => hn ?_⟩, hp, hk⟩
    obtain rfl := h.fds d' hd' d hd hx.1 hx.2
    exact ⟨hk, hp.symm⟩
  have hslots : ∀ d' ∈ (s.close d).fds, ∀ port ino fileId, d'.file = .mount port ino fileId →
      (s.close d).slots port fileId = some ino := by
    intro d' hd' port ino fileId hf
    have hold := h.slots d' (hmem.mp hd').1 port ino fileId hf
    unfold State.close
    cases hdf : d.file with
    | tmp | other => exact hold
    | mount port' ino' fileId' =>
      dsimp only
      split
      · exact hold
      · next hlast =>
        -- The slot of `d'` is not the one that is freed.
        have hne : ¬ (port = port' ∧ fileId = fileId') := by
          rintro ⟨rfl, rfl⟩
          refine hlast (List.any_eq_true.mpr ⟨d', hd', ?_⟩)
          rw [hf]
          simp [lockKeyOf]
        by_cases hp : port = port'
        · subst hp
          rw [update_self, update_of_ne fun hi => hne ⟨rfl, hi⟩]
          exact hold
        · rwa [update_of_ne hp]
  have hinode : ∀ l, Live (s.close d).locks l → (s.close d).inodeOf l.key = s.inodeOf l.key := by
    intro l hl
    obtain ⟨d', hd', -, hk⟩ := howned l hl
    exact (inodeOf_of_slots hk (hslots d' hd')).trans (h.inodeOf_key (hmem.mp hd').1 hk).symm
  refine ⟨fun a ha b hb => h.fds a (hmem.mp ha).1 b (hmem.mp hb).1, hslots, howned,
    fun l l' hl hl' hne hi => ?_, fun i p b m hm => ?_, fun i o m p hm => ?_⟩
  · rw [hinode l hl, hinode l' hl'] at hi
    exact h.excl l l' (live_close.mp hl).1 (live_close.mp hl').1 hne hi
  · obtain ⟨hn, hm⟩ := Option.ite_none_left_eq_some.mp hm
    obtain ⟨l, hl, hp, hi, hrest⟩ := h.posix i p b m hm
    have hl' : Live (s.close d).locks l := by
      refine live_close.mpr ⟨hl, fun hx => hn ⟨?_, hp.symm.trans hx.2⟩⟩
      rw [← hi, h.inodeOf_key hd hx.1]
    exact ⟨l, hl', hp, (hinode l hl').trans hi, hrest⟩
  · change (if o = d.ofd ∧ (s.close d).fds.all (fun d' => d'.ofd != o) = true then none else s.bsd i o) =
      some (m, p) at hm
    obtain ⟨hn, hm⟩ := Option.ite_none_left_eq_some.mp hm
    obtain ⟨⟨d', hd', ho⟩, l, hl, hp, hi, hrest⟩ := h.bsd i o m p hm
    have hl' : Live (s.close d).locks l := by
      refine live_close.mpr ⟨hl, fun hx => ?_⟩
      have hpd : p = d.pid := hp.symm.trans hx.2
      subst hpd
      have hfile : some i = d.file.inode := by rw [← hi, h.inodeOf_key hd hx.1]
      obtain ⟨rfl, hall⟩ := hapt i o m hm hfile
      refine hn ⟨rfl, List.all_eq_true.mpr fun x hx' => ?_⟩
      obtain ⟨hx', hxn⟩ := hmem.mp hx'
      exact bne_iff_ne.mpr fun he => hxn (hall x hx' he)
    refine ⟨?_, l, hl', hp, (hinode l hl').trans hi, hrest⟩
    -- The description has a descriptor left, or the lock would be gone.
    by_cases hod : o = d.ofd
    · have hex : ¬ (s.close d).fds.all (fun d' => d'.ofd != o) = true := fun hx => hn ⟨hod, hx⟩
      rw [List.all_eq_true, not_forall] at hex
      obtain ⟨x, hx⟩ := hex
      rw [not_forall] at hx
      obtain ⟨hx, hxo⟩ := hx
      exact ⟨x, hx, by simpa using hxo⟩
    · refine ⟨d', hmem.mpr ⟨hd', fun hx => hod ?_⟩, ho⟩
      rw [← ho, h.fds d' hd' d hd hx.1 hx.2]

end State

end Leandros.Vfs.Locks
