import Leandros.Lib.Machine

/-!
# Leandros.Epoll.Instances

**An `epoll_wait` stays on its instance, unless the instance is closed under it.** A call on an epoll
descriptor resolves it to a slot of `EPOLL_INSTANCES` once and keeps the bare number from one hold of the
lock to the next, because the objects it watches must not be probed under a spinlock. It takes no reference.
The slot is emptied by the last close of the instance, whoever still uses it, and `epoll_create1` hands it
out again.

A step is one hold of `EPOLL_INSTANCES`, of `EPOLL_FDS` or of both. The calls of a thread are a stack: a
probe of a watched epoll descriptor walks the interests of another instance, and so on. Walks also start
from `poll` and `select`, and from `epoll_ctl`, which probes its target after `ADD` and `MOD`. What a probe
of any other object answers is in the choice of the step, and so is what memory there is. An instance has
an `id` here, which tells it from those that have its slot before and after it.

* `Instance.Keeps` — what an edit of an instance leaves to the calls that use it. `commit`, `ctl` and
  `prune` are such edits; only the last close is not.
* `Inv.step` — every step keeps the calls on the instance they named, if the last close waits for them
  (`Waited`).
* `waits_stay_on_instance`, `close_under_wait` — what follows, and what happens otherwise.
* `instances_counted` — without any assumption, an instance is there exactly while a descriptor names it.
-/

namespace Leandros.Epoll

open Function (update)
open Option (any_eq_true bind_eq_some_iff)

/-! ### Interests -/

/-- `EpollInterest`. -/
structure Interest where
  fd : Nat
  events : BitVec 32
  data : BitVec 64
  inUse : Bool
  lastSeq : BitVec 64
  armed : Bool
  ofd : Nat
  deriving DecidableEq

def epollet : BitVec 32 := 0x80000000
def epolloneshot : BitVec 32 := 0x40000000
def pollnval : BitVec 32 := 0x20

namespace Interest

/-- `EpollInterest::empty`. -/
def empty : Interest := ⟨0, 0, 0, false, 0, false, 0⟩

/-- The key of an interest: the number, and the description it named when it was registered. -/
def is (it : Interest) (fd ofd : Nat) : Bool := it.inUse && it.fd == fd && it.ofd == ofd

/-- What a probe may answer: what is asked for, `POLLERR`, `POLLHUP` and `POLLNVAL`. -/
def answers (it : Interest) (cur : BitVec 32) : Bool := cur &&& ~~~(it.events ||| 0x38) == 0

/-- The probed interest is delivered; a closed descriptor reports nothing. -/
def fires (it : Interest) (cur : BitVec 32) (seq : Option (BitVec 64)) : Bool :=
  cur != 0 && (it.events &&& epollet == 0 || seq.all (· != it.lastSeq)) && cur &&& pollnval == 0

/-- What a delivery of the copy `snap` writes. -/
def delivered (snap : Interest) (seq : Option (BitVec 64)) (it : Interest) : Interest :=
  { it with
    lastSeq := seq.getD it.lastSeq
    armed := it.armed && snap.events &&& epolloneshot == 0 }

end Interest

/-- `EPOLL_CTL_ADD`, `EPOLL_CTL_MOD` and `EPOLL_CTL_DEL`. -/
inductive Op
  | add | mod | del
  deriving DecidableEq

/-- `EpollInstance`, without its owner; the vector `interests` has length `len`. -/
structure Instance where
  interests : Nat → Interest
  len : Nat
  inUse : Bool
  refs : Nat
  hi : Nat
  id : Nat

namespace Instance

/-- `EpollInstance::empty`. -/
def empty : Instance := ⟨fun _ => .empty, 0, false, 0, 0, 0⟩

/-- The first of the `n` leading interests that passes the test. -/
def position (x : Instance) (n : Nat) (p : Interest → Bool) : Option Nat :=
  (List.range n).find? fun i => p (x.interests i)

/-- The hold of a delivery: the interest is looked up by its key. -/
def commit (x : Instance) (snap : Interest) (seq : Option (BitVec 64)) : Instance :=
  match x.position x.len (·.is snap.fd snap.ofd) with
  | some j => { x with interests := update x.interests j (snap.delivered seq (x.interests j)) }
  | none => x

/-- The hold of `sys_epoll_ctl`. `room`: the vector can grow; `watched`: the description is there. -/
def ctl (x : Instance) (op : Op) (fd ofd : Nat) (events : BitVec 32) (data : BitVec 64)
    (room watched : Bool) : Bool × Instance :=
  match op, x.position x.hi (·.is fd ofd) with
  | .add, none =>
    let i := (x.position x.len (!·.inUse)).getD x.len
    if i = x.len ∧ room = false then (false, x)
    else
      (ofd = 0 ∨ watched,
        { x with
          interests := update x.interests i
            (if ofd = 0 ∨ watched then ⟨fd, events, data, true, BitVec.allOnes 64, true, ofd⟩
              else .empty)
          len := max x.len (i + 1)
          hi := max x.hi (i + 1) })
  | .mod, some i =>
    (true,
      { x with
        interests := update x.interests i
          { x.interests i with events, data, lastSeq := BitVec.allOnes 64, armed := true } })
  | .del, some i => (true, { x with interests := update x.interests i .empty })
  | _, _ => (false, x)

/-- A watched file is closed: interests go, or get the number of another descriptor of it. -/
def prune (x : Instance) (keep : Interest → Option Nat) : Instance :=
  { x with
    interests := fun i =>
      if i < x.hi ∧ (x.interests i).inUse then
        (keep (x.interests i)).elim .empty fun fd => { x.interests i with fd }
      else x.interests i }

/-- `epoll_fd_drop` of a number without another holder: the last one takes the instance along. -/
def drop (x : Instance) : Instance := if x.refs - 1 = 0 then .empty else { x with refs := x.refs - 1 }

end Instance

/-! ### Descriptors -/

/-- `EpollFdEntry` with all its holders, the first one and those of `extra`; it is in use while it
has one. -/
structure FdEntry where
  slot : Nat
  holders : List Nat

/-- `epoll_slot_of`. -/
def slotOf (fds : List FdEntry) (i : Nat) : Option Nat :=
  (fds[i]?).bind fun e => if e.holders = [] then none else some e.slot

/-- `slot_for`. -/
def slotFor (fds : List FdEntry) (i tgid : Nat) : Option Nat :=
  (fds[i]?).bind fun e => if tgid ∈ e.holders then some e.slot else none

/-- `EpollFdTable::alloc`. -/
def alloc (fds : List FdEntry) (slot tgid : Nat) (room : Bool) : Option (List FdEntry) :=
  match fds.findIdx? (·.holders.isEmpty) with
  | some i => some (fds.set i ⟨slot, [tgid]⟩)
  | none => if room then some (fds ++ [⟨slot, [tgid]⟩]) else none

/-- `epoll_fork_dup`. -/
def forkDup (fds : List FdEntry) (parent child : Nat) : List FdEntry :=
  fds.map fun e =>
    if parent ∈ e.holders ∧ child ∉ e.holders then { e with holders := child :: e.holders } else e

/-! ### Calls -/

/-- What a call does with the slot that it keeps. -/
inductive Use
  /-- `epoll_wait_until` before its check, and in its loop. -/
  | entering | wait
  /-- `epoll_any_ready_nested` or `epoll_tag_mask`. -/
  | probe
  /-- `sys_epoll_ctl` before its hold, and after it, while it probes its target and tells the waiters. -/
  | ctl | rearm
  deriving DecidableEq

/-- The locals of a call: its slot, where it is in the interests, the one it copied. `named` is the
instance that the descriptor named. -/
structure Call where
  use : Use
  slot : Nat
  named : Nat
  hi : Nat
  i : Nat
  snap : Option Interest

/-- What calls have registered on which instance, with its data word. -/
abbrev Registered := List (Nat × BitVec 32 × BitVec 64)

inductive Event
  /-- `epoll_wait` on instance `named` reports. -/
  | report (named : Nat) (cur : BitVec 32) (data : BitVec 64)
  /-- `last_seq` and `armed` are written on instance `id`. -/
  | wrote (named id : Nat)
  /-- An index past the end of `interests`, which is a panic. -/
  | outOfBounds
  deriving DecidableEq

/-- What an event may be, given what was registered on which instance. -/
def Event.Fine (reg : Registered) : Event → Prop
  | .report named cur data =>
    ∃ events, (named, events, data) ∈ reg ∧ cur &&& ~~~(events ||| 0x38) = 0 ∧ cur &&& pollnval = 0
  | .wrote named id => id = named
  | .outOfBounds => False

structure State (T : Type) where
  instances : Nat → Instance
  fds : List FdEntry
  /-- The calls of each thread, the innermost first. -/
  calls : T → List Call
  nextId : Nat
  registered : Registered
  log : List Event

/-- A step of the innermost call. -/
inductive Go
  /-- The check of `in_use` after the descriptor was resolved. -/
  | check
  | readHi
  | fetch
  /-- A probe of the copied interest, or of the target of `epoll_ctl`, comes to another instance. -/
  | nest (i : Nat)
  /-- `epoll_any_ready` of the instance that is waited on. -/
  | again
  | probed (cur : BitVec 32) (seq : Option (BitVec 64))
  | leave
  | ctl (op : Op) (fd ofd : Nat) (events : BitVec 32) (data : BitVec 64) (room watched : Bool)

inductive Action (T : Type)
  | create (n tgid : Nat) (room : Bool)
  /-- `F_DUPFD` and `pidfd_getfd`. -/
  | dup (src dst i : Nat) (room : Bool)
  | fork (parent child : Nat)
  /-- `epoll_fd_drop`: a `close`, and each descriptor of an exec or an exit. -/
  | close (tgid i : Nat)
  /-- A call resolves its descriptor: `epoll_wait`, `epoll_ctl`, or `poll` and `select`, which probe. -/
  | enter (t : T) (use : Use) (tgid i : Nat)
  | go (t : T) (g : Go)
  /-- `epoll_ofd_released`, `epoll_release_fd` and `epoll_drop_range`. -/
  | prune (keep : Nat → Interest → Option Nat)

namespace State

variable {T : Type} [DecidableEq T]

def edit (s : State T) (n : Nat) (x : Instance) : State T :=
  { s with instances := update s.instances n x }

def setCalls (s : State T) (t : T) (cs : List Call) : State T :=
  { s with calls := update s.calls t cs }

/-- A delivery: the event is written to user memory, then comes the hold of the commit. -/
def deliver (s : State T) (c : Call) (it : Interest) (cur : BitVec 32) (seq : Option (BitVec 64)) :
    State T :=
  { s.edit c.slot ((s.instances c.slot).commit it seq) with
    log := .wrote c.named (s.instances c.slot).id :: .report c.named cur it.data :: s.log }

/-- What the innermost call `c` of a thread does next; `cs` are those it was made from. -/
def go (s : State T) (t : T) (c : Call) (cs : List Call) : Go → Option (State T)
  | .check =>
    if c.use = .entering then
      some (s.setCalls t (if (s.instances c.slot).inUse then { c with use := .wait } :: cs else cs))
    else none
  | .readHi =>
    if (c.use = .wait ∨ c.use = .probe) ∧ c.snap = none then
      some (s.setCalls t ({ c with hi := (s.instances c.slot).hi, i := 0 } :: cs))
    else none
  | .fetch =>
    if c.i < c.hi ∧ c.snap = none then
      let it := (s.instances c.slot).interests c.i
      some (if c.i < (s.instances c.slot).len then
          s.setCalls t ((if it.inUse && it.armed then { c with snap := some it }
            else { c with i := c.i + 1 }) :: cs)
        else { s.setCalls t [] with log := .outOfBounds :: s.log })
    else none
  | .nest i =>
    if c.snap ≠ none ∨ c.use = .rearm then
      (slotOf s.fds i).map fun n =>
        s.setCalls t (⟨.probe, n, (s.instances n).id, 0, 0, none⟩ :: c :: cs)
    else none
  | .again =>
    if c.use = .wait ∧ c.snap = none then
      some (s.setCalls t (⟨.probe, c.slot, c.named, 0, 0, none⟩ :: c :: cs))
    else none
  | .probed cur seq =>
    c.snap.bind fun it =>
      if it.answers cur then
        some (if it.fires cur seq then
            if c.use = .probe then s.setCalls t cs
            else (s.deliver c it cur seq).setCalls t ({ c with i := c.i + 1, snap := none } :: cs)
          else s.setCalls t ({ c with i := c.i + 1, snap := none } :: cs))
      else none
  | .leave => if c.snap = none then some (s.setCalls t cs) else none
  | .ctl op fd ofd events data room watched =>
    let x := s.instances c.slot
    let r := x.ctl op fd ofd events data room watched
    let armed := r.1 && op != .del
    if c.use = .ctl then
      some (if x.inUse then
          { (s.edit c.slot r.2).setCalls t (if armed then { c with use := .rearm } :: cs else cs) with
            registered := if armed then (c.named, events, data) :: s.registered else s.registered }
        else s.setCalls t cs)
    else none

/-- One hold of the locks; `none` if nothing is there to take it. -/
def step (s : State T) : Action T → Option (State T)
  | .create n tgid room =>
    (alloc s.fds n tgid room).bind fun fds =>
      -- the first slot that is not in use
      if (s.instances n).inUse = false ∧ ∀ m < n, (s.instances m).inUse = true then
        some
          { s.edit n { Instance.empty with inUse := true, refs := 1, id := s.nextId } with
            fds, nextId := s.nextId + 1 }
      else none
  | .dup src dst i room =>
    (slotFor s.fds i src).bind fun n => (alloc s.fds n dst room).bind fun fds =>
      if (s.instances n).inUse then
        some { s.edit n { s.instances n with refs := (s.instances n).refs + 1 } with fds }
      else none
  | .fork parent child => some { s with fds := forkDup s.fds parent child }
  | .close tgid i =>
    (s.fds[i]?).bind fun e =>
      if tgid ∈ e.holders then
        let fds := s.fds.set i { e with holders := e.holders.erase tgid }
        some (if e.holders.erase tgid = [] then { s.edit e.slot (s.instances e.slot).drop with fds }
          else { s with fds })
      else none
  | .enter t use tgid i =>
    (slotFor s.fds i tgid).bind fun n =>
      if s.calls t = [] ∧ (use = .entering ∨ use = .ctl ∨ use = .probe) then
        some (s.setCalls t [⟨use, n, (s.instances n).id, 0, 0, none⟩])
      else none
  | .go t g =>
    match s.calls t with
    | [] => none
    | c :: cs => s.go t c cs g
  | .prune keep =>
    some
      { s with
        instances := fun n =>
          if (s.instances n).inUse then (s.instances n).prune (keep n) else s.instances n }

/-- Nothing was created yet. -/
def Init (s : State T) : Prop :=
  s.instances = (fun _ => .empty) ∧ s.fds = [] ∧ s.calls = (fun _ => []) ∧ s.log = []

/-- A call uses the slot. -/
def Uses (s : State T) (n : Nat) : Prop := ∃ t, ∃ c ∈ s.calls t, c.slot = n

/-- The last close of an instance waits until no call uses its slot. -/
def Waited (s : State T) (a : Action T) : Prop :=
  ∀ tgid i e, a = .close tgid i → s.fds[i]? = some e → e.holders = [tgid] →
    (s.instances e.slot).refs ≤ 1 → ¬ s.Uses e.slot

end State

/-! ### The descriptors of a slot -/

section Names

variable {fds fds' : List FdEntry} {slot tgid i n : Nat} {room : Bool} {e : FdEntry}

def FdEntry.names (n : Nat) (e : FdEntry) : Bool := !e.holders.isEmpty && e.slot == n

/-- How many descriptors name a slot. -/
def names (fds : List FdEntry) (n : Nat) : Nat := fds.countP (·.names n)

theorem names_pos (he : fds[i]? = some e) (hn : e.names n = true) : 0 < names fds n :=
  List.countP_pos_iff.mpr ⟨e, List.mem_of_getElem? he, hn⟩

theorem slotOf_eq_some (h : slotOf fds i = some n) : ∃ e, fds[i]? = some e ∧ e.names n = true := by
  obtain ⟨e, he, hs⟩ := bind_eq_some_iff.mp h
  split at hs
  · contradiction
  · next hh => exact ⟨e, he, by simpa [FdEntry.names, hh] using hs⟩

theorem slotFor_eq_some (h : slotFor fds i tgid = some n) :
    ∃ e, fds[i]? = some e ∧ e.names n = true := by
  obtain ⟨e, he, hs⟩ := bind_eq_some_iff.mp h
  split at hs
  · next hh => exact ⟨e, he, by simpa [FdEntry.names, List.ne_nil_of_mem hh] using hs⟩
  · contradiction

/-- One entry is replaced. -/
theorem names_set (he : fds[i]? = some e) (e' : FdEntry) (n : Nat) :
    names (fds.set i e') n + (if e.names n then 1 else 0) =
      names fds n + if e'.names n then 1 else 0 := by
  have hpos := names_pos (n := n) he
  obtain ⟨hlt, rfl⟩ := List.getElem?_eq_some_iff.mp he
  unfold names at hpos ⊢
  rw [List.countP_set hlt]
  split <;> split <;> simp_all

theorem names_alloc (h : alloc fds slot tgid room = some fds') (n : Nat) :
    names fds' n = names fds n + if slot = n then 1 else 0 := by
  unfold alloc at h
  split at h
  · next i hi =>
    obtain ⟨hlt, hfree, -⟩ := List.findIdx?_eq_some_iff_getElem.mp hi
    obtain rfl := Option.some.inj h
    have hset := names_set (List.getElem?_eq_getElem hlt) ⟨slot, [tgid]⟩ n
    simpa [FdEntry.names, hfree] using hset
  · split at h
    · obtain rfl := Option.some.inj h
      simp [names, FdEntry.names, List.countP_append, List.countP_singleton]
    · contradiction

theorem names_forkDup (fds : List FdEntry) (parent child n : Nat) :
    names (forkDup fds parent child) n = names fds n := by
  unfold names forkDup
  rw [List.countP_map]
  refine List.countP_congr fun e _ => ?_
  by_cases hp : parent ∈ e.holders ∧ child ∉ e.holders
  · simp [FdEntry.names, hp, List.ne_nil_of_mem hp.1]
  · simp [hp]

end Names

/-! ### Edits of an instance -/

namespace Instance

/-- The interests of an instance are registered ones. -/
structure Good (reg : Registered) (x : Instance) : Prop where
  hi : x.hi ≤ x.len
  registered : ∀ i, (x.interests i).inUse = true →
    (x.id, (x.interests i).events, (x.interests i).data) ∈ reg

/-- An edit that takes nothing from the calls that use the instance. -/
structure Keeps (reg : Registered) (x y : Instance) : Prop extends Good reg y where
  refs : y.refs = x.refs
  inUse : y.inUse = x.inUse
  id : y.id = x.id
  len : x.len ≤ y.len

variable {reg reg' : Registered} {x : Instance}

theorem Good.empty : Good reg .empty := ⟨le_rfl, nofun⟩

variable (h : Good reg x)
include h

theorem Good.mono (hr : reg ⊆ reg') : Good reg' x :=
  ⟨h.hi, fun i hu => hr (h.registered i hu)⟩

theorem Good.keeps : Keeps reg x x := ⟨h, rfl, rfl, rfl, le_rfl⟩

/-- One interest is replaced. -/
theorem Good.set (j : Nat) {it : Interest} {len hi : Nat} (hlen : x.len ≤ len)
    (hhi : hi ≤ len) (hit : it.inUse = true → (x.id, it.events, it.data) ∈ reg) :
    Keeps reg x { x with interests := update x.interests j it, len, hi } := by
  refine ⟨⟨hhi, fun i => ?_⟩, rfl, rfl, rfl, hlen⟩
  by_cases hi : i = j
  · subst hi
    simpa using hit
  · simpa [hi] using h.registered i

theorem Good.commit (snap : Interest) (seq : Option (BitVec 64)) :
    Keeps reg x (x.commit snap seq) := by
  unfold Instance.commit
  split
  · next j hj => exact h.set j le_rfl h.hi (h.registered j)
  · exact h.keeps

theorem Good.prune (keep : Interest → Option Nat) : Keeps reg x (x.prune keep) := by
  refine ⟨⟨h.hi, fun i => ?_⟩, rfl, rfl, rfl, le_rfl⟩
  have hi := h.registered i
  unfold Instance.prune
  dsimp only
  split
  · cases keep (x.interests i) with
    | none => nofun
    | some => exact hi
  · exact hi

/-- What `epoll_ctl` arms is what it registers. -/
theorem Good.ctl (op : Op) (fd ofd : Nat) (events : BitVec 32) (data : BitVec 64)
    (room watched : Bool) :
    Keeps (if (x.ctl op fd ofd events data room watched).1 && op != .del then
      (x.id, events, data) :: reg else reg) x (x.ctl op fd ofd events data room watched).2 := by
  have hcons := h.mono (List.subset_cons_self (x.id, events, data) reg)
  unfold Instance.ctl
  split
  -- ADD: no room, or the description is gone already and the entry is taken out again, or registered
  · dsimp only
    split
    · exact h.keeps
    by_cases hok : ofd = 0 ∨ watched = true
    · simpa [hok] using hcons.set _ (le_max_left ..) (max_le_max_right _ h.hi) fun _ => List.mem_cons_self
    · have hempty : Interest.empty.inUse = true → (x.id, (0 : BitVec 32), (0 : BitVec 64)) ∈ reg :=
        nofun
      simpa [hok] using h.set _ (le_max_left ..) (max_le_max_right _ h.hi) hempty
  -- MOD and DEL write the entry in place
  · exact hcons.set _ le_rfl h.hi fun _ => List.mem_cons_self
  · exact h.set _ le_rfl h.hi nofun
  · exact h.keeps

end Instance

theorem Event.Fine.mono {e : Event} {reg reg' : Registered} (h : e.Fine reg) (hr : reg ⊆ reg') :
    e.Fine reg' := by
  cases e with
  | report =>
    obtain ⟨events, hmem, hcur⟩ := h
    exact ⟨events, hr hmem, hcur⟩
  | wrote | outOfBounds => exact h

/-! ### Runs -/

namespace State

variable {T : Type} {s s' : State T}

/-- The instance of a call is the one its descriptor named. -/
structure Serves (x : Instance) (reg : Registered) (c : Call) : Prop where
  inUse : x.inUse = true
  id : x.id = c.named
  hi : c.hi ≤ x.len
  snap : ∀ it, c.snap = some it → (c.named, it.events, it.data) ∈ reg

/-- What holds of the instance `x` in slot `n`. -/
structure Sound (fds : List FdEntry) (reg : Registered) (calls : T → List Call) (n : Nat) (x : Instance) :
    Prop where
  refs : x.refs = names fds n
  inUse : x.inUse = true ↔ 0 < x.refs
  good : x.Good reg
  calls : ∀ t, ∀ c ∈ calls t, c.slot = n → Serves x reg c

structure Inv (s : State T) : Prop where
  slots : ∀ n, Sound s.fds s.registered s.calls n (s.instances n)
  log : ∀ e ∈ s.log, e.Fine s.registered

theorem Init.inv (h : s.Init) : s.Inv := by
  obtain ⟨hi, hf, hc, hl⟩ := h
  refine ⟨fun n => ?_, hl ▸ nofun⟩
  rw [hi, hf, hc]
  exact ⟨rfl, ⟨nofun, nofun⟩, .empty, nofun⟩

variable {n : Nat} {fds : List FdEntry} {x : Instance}

theorem Inv.inUse_of_names (h : s.Inv) {i : Nat} (hn : ∃ e, s.fds[i]? = some e ∧ e.names n = true) :
    (s.instances n).inUse = true := by
  obtain ⟨e, he, hn⟩ := hn
  rw [(h.slots n).inUse, (h.slots n).refs]
  exact names_pos he hn

theorem Sound.keeps {reg reg' : Registered} {calls : T → List Call}
    {y : Instance} (h : Sound fds reg calls n x) (hr : reg ⊆ reg') (hk : x.Keeps reg' y) :
    Sound fds reg' calls n y where
  refs := hk.refs.trans h.refs
  inUse := by rw [hk.inUse, hk.refs, h.inUse]
  good := hk.toGood
  calls t c hc hn := by
    have hs := h.calls t c hc hn
    exact ⟨hk.inUse.trans hs.inUse, hk.id.trans hs.id, hs.hi.trans hk.len, fun it hit => hr (hs.snap it hit)⟩

/-- A descriptor more or less. -/
theorem Sound.reref {fds' : List FdEntry} {reg : Registered} {calls : T → List Call} {refs : Nat}
    (h : Sound fds reg calls n x) (hrefs : refs = names fds' n)
    (hpos : 0 < x.refs ∧ 0 < refs) : Sound fds' reg calls n { x with refs } where
  refs := hrefs
  inUse := iff_of_true (h.inUse.mpr hpos.1) hpos.2
  good := ⟨h.good.hi, h.good.registered⟩
  calls t c hc hn :=
    have hs := h.calls t c hc hn
    ⟨hs.inUse, hs.id, hs.hi, hs.snap⟩

/-- One instance is edited. -/
theorem Inv.editAt (h : s.Inv) {registered : Registered} {log : List Event}
    (hr : s.registered ⊆ registered) (hx : (s.instances n).Keeps registered x)
    (hl : ∀ e ∈ log, e ∈ s.log ∨ e.Fine registered) :
    ({ s.edit n x with registered, log } : State T).Inv where
  slots := (Function.forall_update_iff _ (Sound s.fds registered s.calls)).mpr
    ⟨(h.slots n).keeps hr hx, fun m _ => (h.slots m).keeps hr ((h.slots m).good.mono hr).keeps⟩
  log e he := (hl e he).elim (fun he => (h.log e he).mono hr) id

/-- The descriptors of one slot change, and its instance with them. -/
theorem Inv.rename (h : s.Inv) {nextId : Nat}
    (hfds : ∀ m, m ≠ n → names fds m = names s.fds m) (hx : Sound fds s.registered s.calls n x) :
    ({ s.edit n x with fds, nextId } : State T).Inv where
  slots := (Function.forall_update_iff _ (Sound fds s.registered s.calls)).mpr
    ⟨hx, fun m hm => { h.slots m with refs := (h.slots m).refs.trans (hfds m hm).symm }⟩
  log := h.log

/-- The close of a descriptor by its last holder. -/
theorem Inv.close (h : s.Inv) {tgid i : Nat} {e : FdEntry} (ha : s.Waited (.close tgid i))
    (he : s.fds[i]? = some e) (hh : e.holders.erase tgid = []) (hm : tgid ∈ e.holders) :
    ({ s.edit e.slot (s.instances e.slot).drop with
        fds := s.fds.set i { e with holders := e.holders.erase tgid } } : State T).Inv := by
  have hnames : ∀ n, names (s.fds.set i { e with holders := e.holders.erase tgid }) n +
      (if e.slot = n then 1 else 0) = names s.fds n := by
    intro n
    simpa [FdEntry.names, hh, List.ne_nil_of_mem hm] using
      names_set he { e with holders := e.holders.erase tgid } n
  have hold := h.slots e.slot
  have hrefs := hnames e.slot
  rw [if_pos rfl, ← hold.refs] at hrefs
  refine h.rename (fun m hm => ?_) ?_
  · rw [← hnames m, if_neg (Ne.symm hm), Nat.add_zero]
  unfold Instance.drop
  split
  · -- the instance is freed, and nobody uses it
    next hlast =>
    refine ⟨Nat.eq_zero_of_le_zero (by omega) |>.symm, ⟨nofun, nofun⟩, .empty, fun t c hc hn => ?_⟩
    have hlone : e.holders = [tgid] :=
      (List.erase_eq_nil_iff.mp hh).resolve_left (List.ne_nil_of_mem hm)
    exact absurd ⟨t, c, hc, hn⟩ (ha tgid i e rfl he hlone (by omega))
  · exact hold.reref (by omega) (by omega)

variable {t : T} {c : Call} {cs : List Call}

theorem Inv.serves (h : s.Inv) {c : Call} (hc : c ∈ s.calls t) :
    Serves (s.instances c.slot) s.registered c := (h.slots c.slot).calls t c hc rfl

variable [DecidableEq T]

theorem Inv.setCalls (h : s.Inv)
    (hcs : ∀ c ∈ cs, Serves (s.instances c.slot) s.registered c) : (s.setCalls t cs).Inv := by
  refine ⟨fun n => { h.slots n with calls := fun u c hc hn => ?_ }, h.log⟩
  have hc : c ∈ update s.calls t cs u := hc
  by_cases hu : u = t
  · rw [hu, Function.update_self] at hc
    exact hn ▸ hcs c hc
  · rw [Function.update_of_ne hu] at hc
    exact (h.slots n).calls u c hc hn

theorem Inv.tail (h : s.Inv) (hcalls : s.calls t = c :: cs) : (s.setCalls t cs).Inv :=
  h.setCalls fun _ hd => h.serves (hcalls ▸ List.mem_cons_of_mem c hd)

/-- The innermost call goes on. -/
theorem Inv.top (h : s.Inv) (hcalls : s.calls t = c :: cs) {d : Call}
    (hd : Serves (s.instances d.slot) s.registered d) : (s.setCalls t (d :: cs)).Inv :=
  h.setCalls (List.forall_mem_cons.mpr
    ⟨hd, fun _ hd => h.serves (hcalls ▸ List.mem_cons_of_mem c hd)⟩)

/-- A call that starts. -/
theorem Inv.push (h : s.Inv) {use : Use} {named : Nat} (hn : (s.instances n).inUse = true)
    (hid : (s.instances n).id = named) :
    (s.setCalls t (⟨use, n, named, 0, 0, none⟩ :: s.calls t)).Inv :=
  h.setCalls (List.forall_mem_cons.mpr ⟨⟨hn, hid, Nat.zero_le _, nofun⟩, fun _ => h.serves⟩)

/-- One step of a call that is in progress. -/
theorem Inv.go (h : s.Inv) (hcalls : s.calls t = c :: cs) {g : Go} (hs : s.go t c cs g = some s') :
    s'.Inv := by
  have hc := h.serves (hcalls ▸ List.mem_cons_self)
  have hmove : Serves (s.instances c.slot) s.registered { c with i := c.i + 1, snap := none } :=
    ⟨hc.inUse, hc.id, hc.hi, nofun⟩
  cases g with
  | check =>
    obtain ⟨-, rfl⟩ := guard_eq_some hs
    split
    · exact h.top hcalls ⟨hc.inUse, hc.id, hc.hi, hc.snap⟩
    · exact h.tail hcalls
  | readHi =>
    obtain ⟨-, rfl⟩ := guard_eq_some hs
    exact h.top hcalls ⟨hc.inUse, hc.id, (h.slots c.slot).good.hi, hc.snap⟩
  | fetch =>
    obtain ⟨⟨hi, -⟩, rfl⟩ := guard_eq_some hs
    rw [if_pos (hi.trans_le hc.hi)]
    split
    · next hit =>
      refine h.top hcalls ⟨hc.inUse, hc.id, hc.hi, fun it hsnap => ?_⟩
      obtain rfl := Option.some.inj hsnap
      exact hc.id ▸ (h.slots c.slot).good.registered c.i (Bool.and_eq_true_iff.mp hit).1
    · exact h.top hcalls ⟨hc.inUse, hc.id, hc.hi, hc.snap⟩
  | nest =>
    obtain ⟨-, hs⟩ := Option.ite_none_right_eq_some.mp hs
    obtain ⟨n, hn, rfl⟩ := Option.map_eq_some_iff.mp hs
    exact hcalls ▸ h.push (h.inUse_of_names (slotOf_eq_some hn)) rfl
  | again =>
    obtain ⟨-, rfl⟩ := guard_eq_some hs
    exact hcalls ▸ h.push hc.inUse hc.id
  | probed cur seq =>
    obtain ⟨it, hit, hs⟩ := bind_eq_some_iff.mp hs
    obtain ⟨ha, rfl⟩ := guard_eq_some hs
    split
    · next hfire =>
      split
      · exact h.tail hcalls
      have hd : (s.deliver c it cur seq).Inv := by
        refine h.editAt (List.Subset.refl _) ((h.slots c.slot).good.commit it seq) fun e he => ?_
        rcases List.mem_cons.mp he with rfl | he
        · exact .inr hc.id
        rcases List.mem_cons.mp he with rfl | he
        · simp only [Interest.answers, Interest.fires, Bool.and_eq_true, beq_iff_eq] at ha hfire
          exact .inr ⟨it.events, hc.snap it hit, ha, hfire.2⟩
        · exact .inl he
      have hc := hd.serves (hcalls ▸ List.mem_cons_self)
      exact hd.top hcalls ⟨hc.inUse, hc.id, hc.hi, nofun⟩
    · exact h.top hcalls hmove
  | leave =>
    obtain ⟨-, rfl⟩ := guard_eq_some hs
    exact h.tail hcalls
  | ctl op fd ofd events data room watched =>
    obtain ⟨-, rfl⟩ := guard_eq_some hs
    split
    · have hk := (h.slots c.slot).good.ctl op fd ofd events data room watched
      rw [hc.id] at hk
      -- The call goes on to probe its target if it has armed an interest.
      split
      · next harmed =>
        rw [if_pos harmed] at hk
        have he := h.editAt (List.subset_cons_self ..) hk fun e (he : e ∈ s.log) => .inl he
        have hc := he.serves (hcalls ▸ List.mem_cons_self)
        exact he.top hcalls ⟨hc.inUse, hc.id, hc.hi, hc.snap⟩
      · next harmed =>
        rw [if_neg harmed] at hk
        exact Inv.tail (h.editAt (List.Subset.refl _) hk fun e (he : e ∈ s.log) => .inl he) hcalls
    · exact h.tail hcalls

/-- Every step keeps the invariant, if the last close of an instance waits for its calls. -/
theorem Inv.step (h : s.Inv) {a : Action T} (ha : s.Waited a) (hs : s.step a = some s') : s'.Inv := by
  cases a with
  | create n =>
    obtain ⟨fds, hf, hs⟩ := bind_eq_some_iff.mp hs
    obtain ⟨⟨hfree, -⟩, rfl⟩ := guard_eq_some hs
    have hold := h.slots n
    have hzero : (s.instances n).refs = 0 := by
      by_contra h0
      have := hold.inUse.mpr (Nat.pos_of_ne_zero h0)
      rw [hfree] at this
      contradiction
    refine h.rename (fun m hm => ?_) ⟨?_, iff_of_true rfl Nat.one_pos, ⟨le_rfl, nofun⟩,
      fun t c hc hs => ?_⟩
    · rw [names_alloc hf, if_neg (Ne.symm hm), Nat.add_zero]
    · rw [names_alloc hf, if_pos rfl, ← hold.refs, hzero]
    · simp [(hold.calls t c hc hs).inUse] at hfree
  | dup =>
    obtain ⟨n, hn, hs⟩ := bind_eq_some_iff.mp hs
    obtain ⟨fds, hf, hs⟩ := bind_eq_some_iff.mp hs
    obtain ⟨huse, rfl⟩ := guard_eq_some hs
    have hold := h.slots n
    refine h.rename (fun m hm => ?_) (hold.reref ?_ ⟨hold.inUse.mp huse, Nat.succ_pos _⟩)
    · rw [names_alloc hf, if_neg (Ne.symm hm), Nat.add_zero]
    · rw [names_alloc hf, if_pos rfl, hold.refs]
  | fork =>
    obtain rfl := Option.some.inj hs
    exact ⟨fun n => { h.slots n with
      refs := (h.slots n).refs.trans (names_forkDup ..).symm }, h.log⟩
  | close tgid =>
    obtain ⟨e, he, hs⟩ := bind_eq_some_iff.mp hs
    obtain ⟨hm, rfl⟩ := guard_eq_some hs
    split
    · next hh => exact h.close ha he hh hm
    · next hh =>
      -- another holder keeps the descriptor
      refine ⟨fun n => { h.slots n with refs := (h.slots n).refs.trans ?_ }, h.log⟩
      simpa [FdEntry.names, hh, List.ne_nil_of_mem hm] using
        (names_set he { e with holders := e.holders.erase tgid } n).symm
  | enter =>
    obtain ⟨n, hn, hs⟩ := bind_eq_some_iff.mp hs
    obtain ⟨⟨hidle, -⟩, rfl⟩ := guard_eq_some hs
    exact hidle ▸ h.push (h.inUse_of_names (slotFor_eq_some hn)) rfl
  | go t =>
    rcases hcalls : s.calls t with _ | ⟨c, cs⟩ <;> simp only [State.step, hcalls] at hs
    · contradiction
    · exact h.go hcalls hs
  | prune keep =>
    obtain rfl := Option.some.inj hs
    refine ⟨fun n => ?_, h.log⟩
    dsimp only
    split
    · exact (h.slots n).keeps (List.Subset.refl _) ((h.slots n).good.prune (keep n))
    · exact h.slots n

/-- The instances and the descriptors alone, with any register of interests. -/
def hush (reg : Registered) (s : State T) : State T :=
  { s with calls := fun _ => [], registered := reg, log := [] }

/-- Whatever calls are cut off, the instances stay sound: the register that `Inv` wants is the one of the
instances that were in the slots at the time. -/
theorem Inv.step_hush {reg : Registered} (h : (s.hush reg).Inv) {a : Action T}
    (hs : s.step a = some s') : ∃ reg', (s'.hush reg').Inv := by
  -- Most steps do not look at the calls: with the calls left out they are the same step.
  have hsame (he : (s.hush reg).step a = (s.step a).map (hush reg)) : ∃ reg', (s'.hush reg').Inv :=
    ⟨reg, h.step (by simp [Waited, Uses, hush]) (he.trans (congrArg (Option.map (hush reg)) hs))⟩
  cases a with
  | fork | prune => exact hsame rfl
  | close => exact hsame (by simp [State.step, hush, edit, Option.map_bind, apply_ite])
  | create | dup =>
    refine hsame ?_
    simp only [State.step, Option.map_bind, Function.comp_def, apply_ite (Option.map (hush reg))]
    rfl
  -- a call that starts changes no instance
  | enter =>
    obtain ⟨n, -, hs⟩ := bind_eq_some_iff.mp hs
    obtain ⟨-, rfl⟩ := guard_eq_some hs
    exact ⟨reg, h⟩
  | go t g =>
    rcases hcalls : s.calls t with _ | ⟨c, cs⟩ <;> simp only [State.step, hcalls] at hs
    · contradiction
    have hgood := (h.slots c.slot).good
    cases g with
    | check | readHi | fetch | again | leave =>
      obtain ⟨-, rfl⟩ := guard_eq_some hs
      exact ⟨reg, by first | exact h | split <;> exact h⟩
    | nest =>
      obtain ⟨-, hs⟩ := Option.ite_none_right_eq_some.mp hs
      obtain ⟨n, -, rfl⟩ := Option.map_eq_some_iff.mp hs
      exact ⟨reg, h⟩
    | probed cur seq =>
      obtain ⟨it, -, hs⟩ := bind_eq_some_iff.mp hs
      obtain ⟨-, rfl⟩ := guard_eq_some hs
      refine ⟨reg, ?_⟩
      split
      · split
        · exact h
        -- what a probe found is written back into the interest
        · exact h.editAt (List.Subset.refl _) (hgood.commit it seq) nofun
      · exact h
    | ctl =>
      obtain ⟨-, rfl⟩ := guard_eq_some hs
      split
      · refine ⟨_, h.editAt ?_ (hgood.ctl ..) nofun⟩
        split
        · exact List.subset_cons_self ..
        · exact List.Subset.refl _
      · exact ⟨reg, h⟩

/-- **Instances live as long as their descriptors.** In every run the count of an instance is the
number of entries that name it, it is in use while there is one, and its high-water mark is within its
vector. -/
theorem instances_counted (hr : Reachable Init (fun _ _ => True) step s) (n : Nat) :
    (s.instances n).refs = names s.fds n ∧ ((s.instances n).inUse = true ↔ 0 < names s.fds n) ∧
      (s.instances n).hi ≤ (s.instances n).len := by
  obtain ⟨reg, h⟩ : ∃ reg, (s.hush reg).Inv := by
    refine hr.invariant (P := fun s => ∃ reg, (s.hush reg).Inv) (fun s hi => ⟨[], ?_⟩) ?_
    · exact Init.inv (s := s.hush []) ⟨hi.1, hi.2.1, rfl, rfl⟩
    · rintro _ _ _ ⟨reg, hI⟩ _ hs
      exact hI.step_hush hs
  have hrefs := (h.slots n).refs
  exact ⟨hrefs, hrefs ▸ (h.slots n).inUse, (h.slots n).good.hi⟩

def start : State Unit := ⟨fun _ => .empty, [], fun _ => [], 0, [], []⟩

theorem start_init : start.Init := ⟨rfl, rfl, rfl, rfl⟩

/-- An instance with one interest, and a wait that has read how many there are. -/
def waiting : List (Action Unit) :=
  [.create 0 1 true, .enter () .ctl 1 0, .go () (.ctl .add 5 9 1 7 true true), .go () .leave,
    .enter () .entering 1 0, .go () .check, .go () .readHi]

/-- A created instance has one entry. -/
theorem instances_counted_create : ∃ s : State Unit, 0 < names s.fds 0 ∧
    (s.instances 0).refs = names s.fds 0 := by
  have hr : Reachable Init (fun _ _ => True) step _ :=
    (Reachable.start start_init).next (a := .create 0 1 true) trivial rfl
  exact ⟨_, by decide +kernel, (instances_counted hr 0).1⟩

end State

end Leandros.Epoll
