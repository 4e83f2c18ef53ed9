import Leandros.Lib.Machine

/-!
# Leandros.Vfs.Eventfd

**The pool of event counters** (`servers/vfs/src/lib.rs`): `handle_eventfd`, the `EventFd` arms of
`handle_read` and `handle_write`, and the references that copies and closes of descriptors take and
drop. A slot is free if its counter is `u64::MAX`, a value that the addition of `handle_write` can
reach.

Each call is one step, and the descriptors of all processes are one list of the slots they name. What
is kept of a slot for pollers and for diagnosis (`EVENTFD_SEQ`, `EVENTFD_META`) is left out.
-/

namespace Leandros.Vfs

open Option (all_some any_eq_true bind_eq_some_iff map_eq_some_iff)

/-- The free-slot sentinel, `u64::MAX`. -/
def eventfdFree : Nat := 2 ^ 64 - 1

def maxEventfds : Nat := 2 ^ 18

def eventfdGrowth : Nat := 256

structure EventSlot where
  counter : Nat
  refs : Nat
  /-- Not in the source: the creation value, or 0 after a read, and all that was accepted since. -/
  owed : Nat

def EventSlot.free : EventSlot := ⟨eventfdFree, 0, 0⟩

structure EventPool where
  slots : List EventSlot
  /-- The slot of each open descriptor. -/
  fds : List Nat

/-- What a creation finds outside the pool: memory, the caller's table, and a number in it. -/
structure EventEnv where
  heap : Bool
  table : Bool
  number : Bool

/-- The calls; `d` is an open descriptor. -/
inductive EventCall
  | eventfd (initval : BitVec 64) (env : EventEnv)
  | write (d count : Nat) (addval : BitVec 64)
  | read (d count : Nat)
  | dup (d : Nat)
  | close (d : Nat)

namespace EventPool

variable {v v' : EventPool} {s d : Nat} {e : EventSlot}

def set (v : EventPool) (s : Nat) (e : EventSlot) : EventPool :=
  { v with slots := v.slots.set s e }

/-- The first free slot. -/
def position (v : EventPool) : Option Nat := v.slots.findIdx? (·.counter == eventfdFree)

/-- `eventfd_grow`. -/
def eventfdGrow (v : EventPool) (heap : Bool) : Option EventPool :=
  let n := v.slots.length
  if v.slots.any (·.counter == eventfdFree) then some v
  else if maxEventfds ≤ n then none
  else if heap then
    some { v with
      slots := v.slots ++ List.replicate (min (n + eventfdGrowth) maxEventfds - n) .free }
  else none

/-- The loop of `handle_eventfd`; after one growth there is a free slot. -/
def freeSlot (v : EventPool) (heap : Bool) : Option (Nat × EventPool) :=
  match v.position with
  | some s => some (s, v)
  | none => (v.eventfdGrow heap).bind fun v => v.position.map (·, v)

def handleEventfd (v : EventPool) (initval : BitVec 64) (env : EventEnv) :
    Except Nat Nat × EventPool :=
  match v.freeSlot env.heap with
  | none => (.error 23, v)
  | some (s, v) =>
    let val := if initval.toNat = eventfdFree then eventfdFree - 1 else initval.toNat
    let w := v.set s ⟨val, 1, val⟩
    if !env.table then (.error 23, w.set s .free)
    else if !env.number then (.error 24, w.set s .free)
    else (.ok v.fds.length, { w with fds := v.fds ++ [s] })

/-- `handle_write` of a descriptor for slot `s`. -/
def handleWrite (v : EventPool) (s : Nat) (e : EventSlot) (count : Nat) (addval : BitVec 64) :
    Except Nat Nat × EventPool :=
  if count < 8 then (.error 22, v)
  else if addval.toNat = eventfdFree then (.error 22, v)
  else
    (.ok 8, v.set s
      { e with
        -- `saturating_add`
        counter := min (e.counter + addval.toNat) eventfdFree
        owed := e.owed + addval.toNat })

/-- `handle_read`, with the value it leaves in the buffer. -/
def handleRead (v : EventPool) (s : Nat) (e : EventSlot) (count : Nat) :
    Except Nat Nat × EventPool :=
  if count < 8 then (.error 22, v)
  else if e.counter = 0 then (.error 11, v)
  else (.ok e.counter, v.set s { e with counter := 0, owed := 0 })

/-- A copy of a descriptor, with `pipe_ref_inc`. -/
def dup (v : EventPool) (s : Nat) (e : EventSlot) : EventPool :=
  { v.set s { e with refs := (e.refs + 1) % 2 ^ 32 } with fds := v.fds ++ [s] }

/-- `handle_close`. -/
def handleClose (v : EventPool) (d s : Nat) (e : EventSlot) : EventPool :=
  { v.set s (if e.refs - 1 = 0 then .free else { e with refs := e.refs - 1 }) with
    fds := v.fds.eraseIdx d }

/-- The slot of a descriptor. -/
def slot (v : EventPool) (d : Nat) : Option (Nat × EventSlot) :=
  v.fds[d]?.bind fun s => v.slots[s]?.map (s, ·)

/-- A call with its reply; there is none for a descriptor that is not open. -/
def call (v : EventPool) : EventCall → Option (Except Nat Nat × EventPool)
  | .eventfd initval env => some (v.handleEventfd initval env)
  | .write d count addval => (v.slot d).map fun (s, e) => v.handleWrite s e count addval
  | .read d count => (v.slot d).map fun (s, e) => v.handleRead s e count
  | .dup d => (v.slot d).map fun (s, e) => (.ok v.fds.length, v.dup s e)
  | .close d => (v.slot d).map fun (s, e) => (.ok 0, v.handleClose d s e)

def step (v : EventPool) (a : EventCall) : Option EventPool := (v.call a).map Prod.snd

/-! ### What holds of every slot -/

/-- A slot with `n` descriptors. -/
def Counts (e : EventSlot) (n : Nat) : Prop :=
  e.refs = n ∧ if n = 0 then e.counter = eventfdFree
    else e.counter = e.owed ∧ e.counter < eventfdFree

structure Inv (v : EventPool) : Prop where
  counts : ∀ s e, v.slots[s]? = some e → Counts e (v.fds.count s)
  inRange : ∀ s ∈ v.fds, s < v.slots.length

/-- A slot with a descriptor. -/
theorem Inv.open (h : v.Inv) (hs : v.slot d = some (s, e)) :
    v.fds[d]? = some s ∧ s < v.slots.length ∧ v.fds.count s ≠ 0 ∧ e.refs = v.fds.count s ∧
      e.counter = e.owed ∧ e.counter < eventfdFree := by
  obtain ⟨t, hd, hs⟩ := bind_eq_some_iff.mp hs
  obtain ⟨x, he, hs⟩ := map_eq_some_iff.mp hs
  cases hs
  have h0 : v.fds.count s ≠ 0 := (List.count_pos_iff.mpr (List.mem_of_getElem? hd)).ne'
  have hc := h.counts s e he
  rw [Counts, if_neg h0] at hc
  exact ⟨hd, (List.getElem?_eq_some_iff.mp he).1, h0, hc⟩

/-- One slot changes, and with it the number of its descriptors. -/
theorem Inv.set (h : v.Inv) {fds : List Nat} (hs : s < v.slots.length) (he : Counts e (fds.count s))
    (hother : ∀ t, s ≠ t → fds.count t = v.fds.count t) : Inv { v.set s e with fds := fds } := by
  constructor
  · intro t x hx
    simp only [EventPool.set, List.getElem?_set] at hx
    split at hx
    · next ht =>
      -- the slot that is written
      cases hx
      exact ht ▸ he
    · next ht =>
      -- another slot, whose descriptors are the same
      rw [hother t ht]
      exact h.counts t x hx
  · intro t ht
    rw [EventPool.set, List.length_set]
    by_cases hts : s = t
    · exact hts ▸ hs
    · refine h.inRange t (List.count_pos_iff.mp ?_)
      rw [← hother t hts]
      exact List.count_pos_iff.mpr ht

theorem count_push (fds : List Nat) (s t : Nat) :
    (fds ++ [s]).count t = fds.count t + if s = t then 1 else 0 := by
  simp [List.count_append, List.count_singleton]

theorem Inv.eventfdGrow {heap : Bool} (h : v.Inv) (hg : v.eventfdGrow heap = some v') :
    v'.Inv ∧ v'.fds = v.fds := by
  unfold EventPool.eventfdGrow at hg
  dsimp only at hg
  split at hg
  · cases hg
    exact ⟨h, rfl⟩
  split at hg
  · contradiction
  split at hg
  · cases hg
    refine ⟨⟨fun t x hx => ?_, fun t ht => ?_⟩, rfl⟩
    · rw [List.getElem?_append] at hx
      split at hx
      · exact h.counts t x hx
      -- a slot that is new is free and nobody's
      have h0 : v.fds.count t = 0 := by
        rw [List.count_eq_zero]
        intro ht
        exact absurd (h.inRange t ht) (by assumption)
      obtain rfl := List.eq_of_mem_replicate (List.mem_of_getElem? hx)
      rw [h0]
      exact ⟨rfl, rfl⟩
    · rw [List.length_append]
      exact Nat.lt_add_right _ (h.inRange t ht)
  · contradiction

theorem Inv.position (h : v.Inv) (hp : v.position = some s) :
    s < v.slots.length ∧ v.fds.count s = 0 := by
  obtain ⟨hs, hfree, -⟩ := List.findIdx?_eq_some_iff_getElem.mp hp
  refine ⟨hs, ?_⟩
  by_contra h0
  obtain ⟨-, hc⟩ := h.counts s _ (List.getElem?_eq_getElem hs)
  rw [if_neg h0, beq_iff_eq.mp hfree] at hc
  exact lt_irrefl _ hc.2

/-- **A creation finds a slot without descriptors.** -/
theorem Inv.freeSlot {heap : Bool} (h : v.Inv) (hf : v.freeSlot heap = some (s, v')) :
    v'.Inv ∧ v'.fds = v.fds ∧ s < v'.slots.length ∧ v.fds.count s = 0 := by
  unfold EventPool.freeSlot at hf
  split at hf
  · next hp =>
    cases hf
    exact ⟨h, rfl, h.position hp⟩
  · obtain ⟨w, hw, hf⟩ := bind_eq_some_iff.mp hf
    obtain ⟨t, ht, hf⟩ := map_eq_some_iff.mp hf
    cases hf
    obtain ⟨hi, hfds⟩ := h.eventfdGrow hw
    exact ⟨hi, hfds, hfds ▸ hi.position ht⟩

/-- A new event counter is in a slot that no descriptor names. -/
theorem Inv.handleEventfd (h : v.Inv) (initval : BitVec 64) (env : EventEnv) :
    (v.handleEventfd initval env).2.Inv ∧ ∀ fd, (v.handleEventfd initval env).1 = .ok fd →
      ∃ s, s ∉ v.fds ∧ (v.handleEventfd initval env).2.fds = v.fds ++ [s] := by
  unfold EventPool.handleEventfd
  split
  · exact ⟨h, nofun⟩
  · next s w hf =>
    obtain ⟨hi, hfds, hs, h0⟩ := h.freeSlot hf
    -- after a failure the slot is free again, as `freeSlot` found it
    have hfree : ∀ e, ((w.set s e).set s .free).Inv := by
      intro e
      rw [EventPool.set, EventPool.set, List.set_set]
      refine hi.set hs ?_ fun _ _ => rfl
      rw [hfds, h0]
      exact ⟨rfl, rfl⟩
    dsimp only
    split
    · exact ⟨hfree _, nofun⟩
    split
    · exact ⟨hfree _, nofun⟩
    -- the new descriptor is the only one that names the slot
    refine ⟨hi.set hs ?_ fun t ht => ?_, fun _ _ => ⟨s, List.count_eq_zero.mp h0, ?_⟩⟩
    · rw [count_push, hfds, h0, if_pos rfl]
      refine ⟨rfl, rfl, ?_⟩
      split
      · decide
      · next hne => exact lt_of_le_of_ne (Nat.le_sub_one_of_lt initval.isLt) hne
    · rw [count_push, if_neg ht, Nat.add_zero]
    · rw [hfds]

/-- The calls that stay within the counters: a write that leaves the sum below the sentinel, or is
refused for another reason, and a copy that the count of references has room for. -/
def ok (v : EventPool) : EventCall → Bool
  | .write d count addval => (v.slot d).all fun (_, e) =>
      count < 8 || addval.toNat = eventfdFree || e.counter + addval.toNat < eventfdFree
  | .dup d => (v.slot d).all fun (_, e) => e.refs + 1 < 2 ^ 32
  | _ => true

/-- Every call that stays within the counters keeps each slot true to what it is owed. -/
theorem Inv.step {a : EventCall} (h : v.Inv) (hok : v.ok a) (hs : v.step a = some v') : v'.Inv := by
  obtain ⟨reply, hc, rfl⟩ := map_eq_some_iff.mp hs
  cases a with
  | eventfd initval env =>
    cases hc
    exact (h.handleEventfd initval env).1
  | write =>
    obtain ⟨⟨s, e⟩, hslot, rfl⟩ := map_eq_some_iff.mp hc
    obtain ⟨-, hlen, h0, hr, ho, -⟩ := h.open hslot
    dsimp only [handleWrite]
    split
    · exact h
    split
    · exact h
    · next hcount hmax =>
      simp only [ok, hslot, all_some, hcount, hmax, decide_false, Bool.false_or,
        decide_eq_true_eq] at hok
      -- `ok` says that the sum stays below the limit
      refine h.set hlen ⟨hr, ?_⟩ fun _ _ => rfl
      rw [if_neg h0, min_eq_left hok.le]
      exact ⟨congrArg (· + _) ho, hok⟩
  | read =>
    obtain ⟨⟨s, e⟩, hslot, rfl⟩ := map_eq_some_iff.mp hc
    obtain ⟨-, hlen, h0, hr, -⟩ := h.open hslot
    dsimp only [handleRead]
    split
    · exact h
    split
    · exact h
    · refine h.set hlen ⟨hr, ?_⟩ fun _ _ => rfl
      rw [if_neg h0]
      exact ⟨rfl, Nat.zero_lt_succ _⟩
  | dup =>
    obtain ⟨⟨s, e⟩, hslot, rfl⟩ := map_eq_some_iff.mp hc
    obtain ⟨-, hlen, -, hr, ho⟩ := h.open hslot
    simp only [ok, hslot, all_some, decide_eq_true_eq] at hok
    -- the count is a `u32`, and `ok` leaves room for one more
    refine h.set hlen ?_ fun t ht => ?_
    · rw [count_push, if_pos rfl, ← hr]
      exact ⟨Nat.mod_eq_of_lt hok, ho⟩
    · rw [count_push, if_neg ht, Nat.add_zero]
  | close d =>
    obtain ⟨⟨s, e⟩, hslot, rfl⟩ := map_eq_some_iff.mp hc
    obtain ⟨hd, hlen, -, hr, ho⟩ := h.open hslot
    obtain ⟨hlt, hget⟩ := List.getElem?_eq_some_iff.mp hd
    -- one descriptor of this slot goes and none of another
    have hcount : ∀ t, v.fds.count t = (v.fds.eraseIdx d).count t + if s = t then 1 else 0 := by
      intro t
      rw [← (List.getElem_cons_eraseIdx_perm hlt).count_eq, hget, List.count_cons]
      simp only [beq_iff_eq]
    have hn : e.refs - 1 = (v.fds.eraseIdx d).count s := by
      rw [hr, hcount s, if_pos rfl, Nat.add_sub_cancel]
    refine h.set hlen ?_ fun t ht => ?_
    · rw [← hn]
      split
      · next h0 =>
        rw [h0]
        exact ⟨rfl, rfl⟩
      · next h0 => exact ⟨rfl, (if_neg h0).mpr ho⟩
    · rw [hcount t, if_neg ht, Nat.add_zero]

/-- Runs from the empty pool. -/
abbrev Run (ok : EventPool → EventCall → Prop) : EventPool → Prop :=
  Reachable (Eq ⟨[], []⟩) ok step

/-- The reply that a write of `addval` to a counter should get. -/
def writeReply (counter count : Nat) (addval : BitVec 64) : Except Nat Nat :=
  if count < 8 ∨ addval.toNat = eventfdFree then .error 22
  else if counter + addval.toNat < eventfdFree then .ok 8
  else .error 11

/-- **Eventfds count exactly and are not recycled alive**, while no write takes a counter to the
sentinel. -/
theorem eventfds_exact (hr : Run (fun v a => v.ok a) v) : (∀ {d s e}, v.slot d = some (s, e) →
      e.counter ≤ 2 ^ 64 - 2 ∧
      (∀ {count val v'}, v.handleRead s e count = (.ok val, v') → val = e.owed) ∧
      ∀ {count addval}, v.ok (.write d count addval) →
        (v.handleWrite s e count addval).1 = writeReply e.counter count addval) ∧
    ∀ {initval env fd}, (v.handleEventfd initval env).1 = .ok fd →
      ∃ s, s ∉ v.fds ∧ (v.handleEventfd initval env).2.fds = v.fds ++ [s] := by
  have h : v.Inv := hr.invariant (fun _ h => h ▸ ⟨nofun, nofun⟩) fun _ _ _ h hok hs => h.step hok hs
  refine ⟨fun {d s e} hs => ?_, (h.handleEventfd ..).2 _⟩
  obtain ⟨-, -, -, -, ho, hlt⟩ := h.open hs
  refine ⟨Nat.le_sub_one_of_lt hlt, ?_, ?_⟩
  · -- a read that succeeds hands over the whole counter
    intro count val v' hread
    unfold handleRead at hread
    split at hread
    · cases hread
    split at hread
    · cases hread
    · cases hread
      exact ho
  · -- a write adds to it unless the sum would pass the limit
    intro count addval hok
    unfold handleWrite writeReply
    split
    · next hc => rw [if_pos (.inl hc)]
    split
    · next hm => rw [if_pos (.inr hm)]
    · next hc hm =>
      simp only [ok, hs, all_some, hc, hm, decide_false, Bool.false_or, decide_eq_true_eq] at hok
      rw [if_neg (not_or.mpr ⟨hc, hm⟩), if_pos hok]

/-- All that a creation asks for is there. -/
def roomy : EventEnv := ⟨true, true, true⟩

/-- A counter of two descriptors is written to through both and read. -/
theorem eventfds_exact_dup : ∃ v e v', Run (fun v a => v.ok a) v ∧ v.slot 1 = some (0, e) ∧
    v.handleRead 0 e 8 = (.ok 12, v') ∧ 12 = e.owed := by
  have hrun : ((replay (fun v a => v.ok a) step ⟨[], []⟩
      [.eventfd 5 roomy, .dup 0, .write 0 8 3, .write 1 8 4]).any fun v =>
        (v.slot 1).any fun (s, e) => s = 0 && e.counter = 12) = true := by decide +kernel
  obtain ⟨v, hr, hrun⟩ := Reachable.observe rfl hrun
  obtain ⟨⟨s, e⟩, hs, hrun⟩ := (any_eq_true _ _).mp hrun
  simp only [Bool.and_eq_true, decide_eq_true_eq] at hrun
  obtain ⟨rfl, hc⟩ := hrun
  have hread : v.handleRead 0 e 8 = (.ok 12, v.set 0 { e with counter := 0, owed := 0 }) := by
    simp [handleRead, hc]
  exact ⟨v, e, _, hr, hs, hread, ((eventfds_exact hr).1 hs).2.1 hread⟩

/-- A write that takes the counter to the sentinel is accepted, and the next creation returns the
slot that the descriptor still names. -/
theorem full_counter_recycled : ∃ v w, Run (fun _ _ => True) v ∧
    v.call (.write 0 8 1) = some (.ok 8, w) ∧ w.fds = [0] ∧
    (w.handleEventfd 0 roomy).2.fds = [0, 0] := by
  have hrun : ((replay (fun _ _ => True) step ⟨[], []⟩ [.eventfd (2 ^ 64 - 2) roomy]).any fun v =>
      (v.call (.write 0 8 1)).any fun (r, w) => r.toOption = some 8 && w.fds = [0] &&
        (w.handleEventfd 0 roomy).2.fds = [0, 0]) = true := by decide +kernel
  obtain ⟨v, hv, hrun⟩ := Reachable.observe rfl hrun
  obtain ⟨⟨r, w⟩, hw, hrun⟩ := (any_eq_true _ _).mp hrun
  simp only [Bool.and_eq_true, decide_eq_true_eq] at hrun
  obtain ⟨⟨hr, h1⟩, h2⟩ := hrun
  cases r with
  | error => cases hr
  | ok =>
    cases hr
    exact ⟨v, w, hv, hw, h1, h2⟩

end EventPool

end Leandros.Vfs
