import Leandros.Sched.Parking

/-!
# Leandros.Sched.Ksync.Model

The kernel's sleeping locks (`sched/src/ksync.rs`): counting semaphore, mutex and
reader/writer lock, and how their waiters are parked and woken (`kwake` in
`sched/src/lib.rs`).

Each lock has a spinlock of its own, and what happens under it is one step here. Between
these steps a waiter goes through the phases of `park_until_granted`, and whoever gave a
lock away wakes the new owners; a wake that does not get `RUN_QUEUE` is left in
`KWAKE_DEFERRED` for a tick, and there the atomic operations are the steps.

A lock that is released goes to the first waiter at once. What a waiter learns when it
runs again is whether its node was `granted`.
-/

namespace Leandros.Sched

open Function (update)

/-- Who runs kernel code: a task, or something that never sleeps (an interrupt, the boot
path) with the pid it finds on its CPU. -/
inductive Context
  | task (pid : Nat)
  | atomic (id pid : Nat)
  deriving DecidableEq

/-- `current_pid`. -/
def Context.pid : Context → Nat
  | .task pid => pid
  | .atomic _ pid => pid

/-- The context may be parked. -/
def Context.canSleep : Context → Bool
  | .task pid => pid != 0
  | .atomic _ _ => false

/-! ### Wait lists -/

/-- `KIND_PLAIN`, `KIND_READER` and `KIND_WRITER`. -/
inductive WaitKind
  | plain | reader | writer
  deriving DecidableEq

/-- `CLS_FIFO`, `CLS_PRIO` and `CLS_RESUME`. -/
inductive WaitClass
  | fifo | prio | resume
  deriving DecidableEq

/-- `WaitNode`, with the context on whose stack it is. -/
structure WaitNode where
  who : Context
  pid : Nat
  kind : WaitKind
  cls : WaitClass
  bypassed : Nat
  spin : Bool
  deriving DecidableEq

namespace WaitNode

/-- `WaitNode::new`. -/
def new (who : Context) (kind : WaitKind) : WaitNode := ⟨who, who.pid, kind, .fifo, 0, false⟩

/-- One more classed waiter went ahead; the count is a `u16` that saturates. -/
def bypass (n : WaitNode) : WaitNode :=
  if n.cls = .fifo then { n with bypassed := min (n.bypassed + 1) (2 ^ 16 - 1) } else n

/-- `insert_classed` puts a node of class `cls` ahead of `n`. -/
def yieldsTo (n : WaitNode) (cls : WaitClass) (maxBypass : Nat) : Bool :=
  n.cls == .fifo && (cls == .resume || decide (n.bypassed < maxBypass))

end WaitNode

namespace WaitList

/-- `push_back`. -/
def pushBack (l : List WaitNode) (n : WaitNode) : List WaitNode := l ++ [n]

/-- The walk of `insert_classed`. -/
def insertAhead (n : WaitNode) (maxBypass : Nat) : List WaitNode → List WaitNode
  | [] => [n]
  | p :: l =>
    if p.yieldsTo n.cls maxBypass then n :: (p :: l).map WaitNode.bypass
    else p :: insertAhead n maxBypass l

/-- `insert_classed`. -/
def insertClassed (l : List WaitNode) (n : WaitNode) (maxBypass : Nat) : List WaitNode :=
  if n.cls = .fifo then pushBack l n else insertAhead n maxBypass l

/-- `remove`. -/
def remove (l : List WaitNode) (who : Context) : List WaitNode := l.filter fun n => n.who ≠ who

/-- `front_kind`. -/
def frontKind (l : List WaitNode) : Option WaitKind := l.head?.map WaitNode.kind

/-- Pop readers from the front, at most so many. -/
def popReaders : Nat → List WaitNode → List WaitNode × List WaitNode
  | 0, l => ([], l)
  | _ + 1, [] => ([], [])
  | k + 1, n :: l =>
    if n.kind = .reader then
      let r := popReaders k l
      (n :: r.1, r.2)
    else ([], n :: l)

end WaitList

open WaitList

/-! ### The locks -/

/-- An `i64` after arithmetic. -/
def wrapI64 (x : Int) : Int := (x + 2 ^ 63) % 2 ^ 64 - 2 ^ 63

/-- `KSemaphore`. -/
structure KSemaphore where
  count : Int
  waiters : List WaitNode
  deriving DecidableEq

namespace KSemaphore

/-- `try_down`. -/
def tryDown (s : KSemaphore) : Bool × KSemaphore :=
  if 0 < s.count then (true, { s with count := s.count - 1 }) else (false, s)

/-- The locked part of `down_deadline`: take a unit, or queue. -/
def downDeadline (s : KSemaphore) (who : Context) : Bool × KSemaphore :=
  if 0 < s.count then (true, { s with count := s.count - 1 })
  else (false, { s with waiters := pushBack s.waiters (.new who .plain) })

/-- The locked part of `up`: who was granted the unit. -/
def up (s : KSemaphore) : Option WaitNode × KSemaphore :=
  match s.waiters with
  | n :: l => (some n, { s with waiters := l })
  | [] => (none, { s with count := wrapI64 (s.count + 1) })

end KSemaphore

/-- `KRawMutex`; the owner is a pid plus one, 0 is nobody. -/
structure KRawMutex where
  owner : Nat
  waiters : List WaitNode
  deriving DecidableEq

namespace KRawMutex

/-- `me`. -/
def me (who : Context) : Nat := (who.pid + 1) % 2 ^ 32

/-- `try_lock`. -/
def tryLock (m : KRawMutex) (who : Context) : Bool × KRawMutex :=
  if m.owner = 0 then (true, { m with owner := me who }) else (false, m)

/-- The locked part of `lock_deadline`. -/
def lockDeadline (m : KRawMutex) (who : Context) : Bool × KRawMutex :=
  if m.owner = 0 then (true, { m with owner := me who })
  else (false, { m with waiters := pushBack m.waiters (.new who .plain) })

/-- The locked part of `lock_class`. -/
def lockClass (m : KRawMutex) (who : Context) (cls : WaitClass) (maxBypass : Nat) (sleep : Bool) :
    Bool × KRawMutex :=
  if m.owner = 0 then (true, { m with owner := me who })
  else
    (false,
      { m with
        waiters := insertClassed m.waiters
          { WaitNode.new who .plain with cls := cls, spin := !sleep } maxBypass })

/-- The locked part of `unlock`: who owns it now. -/
def unlock (m : KRawMutex) : Option WaitNode × KRawMutex :=
  match m.waiters with
  | n :: l => (some n, { owner := (n.pid + 1) % 2 ^ 32, waiters := l })
  | [] => (none, { m with owner := 0 })

end KRawMutex

/-- `KRawRwLock`. -/
structure KRawRwLock where
  readers : Nat
  writer : Bool
  waiters : List WaitNode
  deriving DecidableEq

namespace KRawRwLock

/-- A reader, or a writer, gets it at once. -/
def free (l : KRawRwLock) : WaitKind → Bool
  | .reader => !l.writer && l.waiters.isEmpty
  | _ => !l.writer && l.readers == 0

/-- The lock is given to one more. -/
def give (l : KRawRwLock) : WaitKind → KRawRwLock
  | .reader => { l with readers := (l.readers + 1) % 2 ^ 32 }
  | _ => { l with writer := true }

/-- `try_read` and `try_write`. -/
def tryAcquire (l : KRawRwLock) (kind : WaitKind) : Bool × KRawRwLock :=
  if l.free kind then (true, l.give kind) else (false, l)

/-- The locked part of `acquire`. -/
def acquire (l : KRawRwLock) (who : Context) (kind : WaitKind) : Bool × KRawRwLock :=
  if l.free kind then (true, l.give kind)
  else (false, { l with waiters := pushBack l.waiters (.new who kind) })

/-- One round of `grant_and_unlock`: who gets the lock, and whether there is another round. -/
def grantRound (l : KRawRwLock) : (List WaitNode × Bool) × KRawRwLock :=
  if l.writer then (([], false), l)
  else
    match l.waiters with
    | [] => (([], false), l)
    | n :: rest =>
      match n.kind with
      | .writer =>
        if l.readers = 0 then (([n], false), { l with writer := true, waiters := rest })
        else (([], false), l)
      | .reader =>
        let r := popReaders 16 l.waiters
        ((r.1, frontKind r.2 == some .reader),
          { l with readers := (l.readers + r.1.length) % 2 ^ 32, waiters := r.2 })
      | .plain => (([], false), l)

/-- What `read_unlock` does before the grant. -/
def readRelease (l : KRawRwLock) : KRawRwLock := { l with readers := l.readers - 1 }

/-- What `write_unlock` does before the grant. -/
def writeRelease (l : KRawRwLock) : KRawRwLock := { l with writer := false }

end KRawRwLock

inductive Lock
  | sema (s : KSemaphore)
  | mutex (m : KRawMutex)
  | rwlock (l : KRawRwLock)
  deriving DecidableEq

def Lock.waiters : Lock → List WaitNode
  | .sema s => s.waiters
  | .mutex m => m.waiters
  | .rwlock l => l.waiters

/-- A waiter takes its node out of the list. -/
def Lock.unlink (who : Context) : Lock → Lock
  | .sema s => .sema { s with waiters := remove s.waiters who }
  | .mutex m => .mutex { m with waiters := remove m.waiters who }
  | .rwlock l => .rwlock { l with waiters := remove l.waiters who }

/-- What has been done with a lock so far. -/
structure Ledger where
  /-- Who holds it and how; of a semaphore, who was granted a unit and has not returned. -/
  holders : List (Context × WaitKind)
  initial : Int
  ups : Nat
  downs : Nat

/-! ### Where a context is -/

/-- The phases of `park_until_granted`. -/
inductive ParkStage
  /-- Before `kwait_prepare`. -/
  | prepare
  /-- Before the list lock is taken. -/
  | check
  /-- In `kwait_commit`. -/
  | commit
  /-- Before `kwait_cancel`. -/
  | cancel (granted : Bool)
  /-- On the way out. -/
  | leave (granted : Bool)
  deriving DecidableEq

/-- A wait for a lock. -/
structure Wait where
  lock : Nat
  kind : WaitKind
  spin : Bool
  deadline : Nat
  stage : ParkStage
  granted : Bool
  deriving DecidableEq

inductive Place
  | idle
  | waiting (w : Wait)
  /-- After a release: the wakes still to do, and the reader/writer lock to grant again. -/
  | waking (pids : List Nat) (more : Option Nat)
  /-- In `kwake_defer`, at a slot. -/
  | deferring (pid slot : Nat) (pids : List Nat) (more : Option Nat)
  /-- In `kwake_defer`, before it sets `KWAKE_PENDING`. -/
  | noting (pids : List Nat) (more : Option Nat)
  /-- In `service_deferred_kwakes`, after the swap. -/
  | swapped
  /-- In `service_deferred_kwakes`, with `RUN_QUEUE` held. -/
  | serving
  /-- In its loop, at a slot. -/
  | draining (slot : Nat)
  deriving DecidableEq

/-- `KWAKE_DEFER_SLOTS`. -/
def kwakeDeferSlots : Nat := 64

/-- `KLOCK_SLOTS`. -/
def klockSlots : Nat := 4096

/-- The sleeping locks, their users, and the run queue. -/
structure Ksync where
  chan : Channels
  /-- `RUN_QUEUE` is held over several steps. -/
  rqHeld : Bool
  /-- `KWAKE_DEFERRED`. -/
  deferred : Nat → Nat
  /-- `KWAKE_PENDING`. -/
  pending : Bool
  /-- `KWAKE_OVERFLOW`. -/
  overflow : Bool
  /-- `KLOCKS`. -/
  klocks : Nat → Nat
  lock : Nat → Lock
  ledger : Nat → Ledger
  place : Context → Place

inductive KsyncAction
  | tryDown (who : Context) (n : Nat)
  | down (who : Context) (n deadline : Nat)
  | up (who : Context) (n : Nat)
  | tryLock (who : Context) (n : Nat)
  | lock (who : Context) (n deadline : Nat)
  | lockClass (who : Context) (n : Nat) (cls : WaitClass) (maxBypass : Nat) (sleep : Bool)
      (deadline : Nat)
  | unlock (who : Context) (n : Nat)
  | tryAcquire (who : Context) (n : Nat) (kind : WaitKind)
  | acquire (who : Context) (n : Nat) (kind : WaitKind)
  | release (who : Context) (n : Nat) (kind : WaitKind)
  /-- `grant_and_unlock`, a further round. -/
  | grantMore (who : Context)
  | prepare (who : Context)
  /-- The locked part of a round of `park_until_granted` or of the spin loop. -/
  | check (who : Context) (now : Nat)
  | cancel (who : Context)
  | leave (who : Context)
  /-- The yield returns. -/
  | resume (who : Context)
  /-- A `kwake` of something else, such as a wait queue. -/
  | wakeOther (who : Context) (pid : Nat)
  /-- `kwake`; `locked`: it gets `RUN_QUEUE`. -/
  | kwake (who : Context) (locked : Bool)
  | defer (who : Context)
  | note (who : Context)
  /-- The wakes are done. -/
  | wakesDone (who : Context)
  | serviceSwap (who : Context)
  | serviceLock (who : Context) (locked : Bool)
  | serviceOverflow (who : Context)
  | drain (who : Context)
  /-- A signal makes a blocked task runnable. -/
  | signal (pid : Nat)
  /-- The deadline tick. -/
  | tick (now : Nat) (timerfdTags : BitVec 64)

namespace Ksync

/-- `klock_inc`. -/
def klockInc (k : Nat → Nat) (pid : Nat) : Nat → Nat :=
  update k (pid % klockSlots) ((k (pid % klockSlots) + 1) % 2 ^ 32)

/-- `klock_dec`. -/
def klockDec (k : Nat → Nat) (pid : Nat) : Nat → Nat :=
  update k (pid % klockSlots) (k (pid % klockSlots) - 1)

/-- Set `granted` in the node of `who`. -/
def grant (place : Context → Place) (who : Context) : Context → Place :=
  update place who
    (match place who with
    | .waiting w => .waiting { w with granted := true }
    | p => p)

def grantAll (place : Context → Place) (nodes : List WaitNode) : Context → Place :=
  nodes.foldl (fun place n => grant place n.who) place

def setLock (s : Ksync) (n : Nat) (l : Lock) : Ksync :=
  { s with lock := update s.lock n l }

def setLedger (s : Ksync) (n : Nat) (f : Ledger → Ledger) : Ksync :=
  { s with ledger := update s.ledger n (f (s.ledger n)) }

def goTo (s : Ksync) (who : Context) (p : Place) : Ksync :=
  { s with place := update s.place who p }

def hold (who : Context) (kind : WaitKind) (l : Ledger) : Ledger :=
  { l with holders := (who, kind) :: l.holders }

def holdAll (nodes : List WaitNode) (l : Ledger) : Ledger :=
  { l with holders := nodes.map (fun n => (n.who, n.kind)) ++ l.holders }

def drop (who : Context) (kind : WaitKind) (l : Ledger) : Ledger :=
  { l with holders := l.holders.erase (who, kind) }

/-- A context starts to wait. -/
def enqueue (s : Ksync) (who : Context) (n : Nat) (l : Lock) (kind : WaitKind) (spin : Bool)
    (deadline : Nat) : Ksync :=
  (s.setLock n l).goTo who
    (.waiting ⟨n, kind, spin, deadline, if spin then .check else .prepare, false⟩)

/-- The pids that a releaser wakes; 0 is nobody. -/
def wakesOf (nodes : List WaitNode) : List Nat :=
  (nodes.filter fun n => !n.spin && n.pid != 0).map WaitNode.pid

/-- The nodes are granted, and their owners are to be woken. -/
def handOver (s : Ksync) (who : Context) (n : Nat) (l : Lock) (nodes : List WaitNode)
    (more : Option Nat) : Ksync :=
  { (s.setLock n l).setLedger n (holdAll nodes) with
    place := update (grantAll s.place nodes) who (.waking (wakesOf nodes) more) }

/-- A round of `grant_and_unlock` on lock `n`, released to `l`. -/
def grantRound (s : Ksync) (who : Context) (n : Nat) (l : KRawRwLock) : Ksync :=
  let r := l.grantRound
  s.handOver who n (.rwlock r.2) r.1.1 (if r.1.2 then some n else none)

/-- A step of a context that does nothing else. -/
def idle (s : Ksync) (who : Context) (s' : Option Ksync) : Option Ksync :=
  if s.place who = .idle then s' else none

/-- A step of a context in a wait. -/
def inWait (s : Ksync) (who : Context) (f : Wait → Option Ksync) : Option Ksync :=
  match s.place who with
  | .waiting w => f w
  | _ => none

/-- A mutex, taken or queued for. -/
def takeMutex (s : Ksync) (who : Context) (n : Nat) (spin : Bool) (deadline : Nat)
    (r : Bool × KRawMutex) : Ksync :=
  let s := { s with klocks := klockInc s.klocks who.pid }
  if r.1 then (s.setLock n (.mutex r.2)).setLedger n (hold who .plain)
  else s.enqueue who n (.mutex r.2) .plain spin deadline

/-- The step an action takes, if it can be taken. -/
def step (s : Ksync) : KsyncAction → Option Ksync
  | .tryDown who n =>
    s.idle who
      (match s.lock n with
      | .sema q =>
        let r := q.tryDown
        some ((s.setLock n (.sema r.2)).setLedger n fun l =>
          if r.1 then { l with downs := l.downs + 1 } else l)
      | _ => none)
  | .down who n deadline =>
    s.idle who
      (match s.lock n with
      | .sema q =>
        if who.canSleep then
          let r := q.downDeadline who
          some
            (if r.1 then
              (s.setLock n (.sema r.2)).setLedger n fun l => { l with downs := l.downs + 1 }
            else s.enqueue who n (.sema r.2) .plain false deadline)
        else none
      | _ => none)
  | .up who n =>
    s.idle who
      (match s.lock n with
      | .sema q =>
        let r := q.up
        some ((s.handOver who n (.sema r.2) r.1.toList none).setLedger n fun l =>
          { l with ups := l.ups + 1 })
      | _ => none)
  | .tryLock who n =>
    s.idle who
      (match s.lock n with
      | .mutex m =>
        let r := m.tryLock who
        some (if r.1 then s.takeMutex who n false 0 r else s)
      | _ => none)
  | .lock who n deadline =>
    s.idle who
      (match s.lock n with
      | .mutex m =>
        if who.canSleep then some (s.takeMutex who n false deadline (m.lockDeadline who))
        else none
      | _ => none)
  | .lockClass who n cls maxBypass sleep deadline =>
    s.idle who
      (match s.lock n with
      | .mutex m =>
        if sleep → who.canSleep then
          some (s.takeMutex who n (!sleep) deadline (m.lockClass who cls maxBypass sleep))
        else none
      | _ => none)
  | .unlock who n =>
    s.idle who
      (match s.lock n with
      | .mutex m =>
        if (who, .plain) ∈ (s.ledger n).holders then
          let r := m.unlock
          some
            (({ s with
                klocks := if m.owner = 0 then s.klocks else klockDec s.klocks (m.owner - 1)
                }.setLedger n (drop who .plain)).handOver who n (.mutex r.2) r.1.toList none)
        else none
      | _ => none)
  | .tryAcquire who n kind =>
    s.idle who
      (match s.lock n with
      | .rwlock l =>
        if kind = .plain then none
        else if (l.tryAcquire kind).1 then
          some ({ s.setLock n (.rwlock (l.tryAcquire kind).2) with
            klocks := klockInc s.klocks who.pid }.setLedger n (hold who kind))
        else some s
      | _ => none)
  | .acquire who n kind =>
    s.idle who
      (match s.lock n with
      | .rwlock l =>
        if kind ≠ .plain ∧ who.canSleep then
          let r := l.acquire who kind
          let s := { s with klocks := klockInc s.klocks who.pid }
          some
            (if r.1 then (s.setLock n (.rwlock r.2)).setLedger n (hold who kind)
            else s.enqueue who n (.rwlock r.2) kind false noDeadline)
        else none
      | _ => none)
  | .release who n kind =>
    s.idle who
      (match s.lock n with
      | .rwlock l =>
        if kind ≠ .plain ∧ (who, kind) ∈ (s.ledger n).holders then
          some
            (({ s with klocks := klockDec s.klocks who.pid }.setLedger n
              (drop who kind)).grantRound who n
                (if kind = WaitKind.reader then l.readRelease else l.writeRelease))
        else none
      | _ => none)
  | .grantMore who =>
    match s.place who with
    | .waking [] (some n) =>
      match s.lock n with
      | .rwlock l => some (s.grantRound who n l)
      | _ => none
    | _ => none
  | .prepare who =>
    s.inWait who fun w =>
      if w.stage = .prepare ∧ s.rqHeld = false then
        some
          ({ s with chan := s.chan.blockOnPortUntil who.pid kwaitChannel w.deadline 0 }.goTo who
            (.waiting { w with stage := .check }))
      else none
  | .check who now =>
    s.inWait who fun w =>
      -- `u64::MAX` is no instant: as a deadline it is none.
      if w.stage = .check ∧ now < noDeadline then
        let out (r : Bool) : Place :=
          .waiting { w with stage := if w.spin then .leave r else .cancel r }
        some
          (if w.granted then s.goTo who (out true)
          else if w.deadline ≤ now then
            (s.setLock w.lock ((s.lock w.lock).unlink who)).goTo who (out false)
          else if w.spin then s
          else s.goTo who (.waiting { w with stage := .commit }))
      else none
  | .cancel who =>
    s.inWait who fun w =>
      match w.stage with
      | .cancel r =>
        if s.rqHeld = false then
          some ({ s with chan := s.chan.blockOnPortCancel who.pid }.goTo who
            (.waiting { w with stage := .leave r }))
        else none
      | _ => none
  | .leave who =>
    s.inWait who fun w =>
      match w.stage with
      | .leave r =>
        match s.lock w.lock with
        | .sema _ =>
          some ((s.setLedger w.lock fun l =>
            if r then { drop who .plain l with downs := l.downs + 1 } else l).goTo who .idle)
        | .mutex _ =>
          some ({ s with
            klocks := if r then s.klocks else klockDec s.klocks who.pid }.goTo who .idle)
        | .rwlock _ => some (s.goTo who .idle)
      | _ => none
  | .resume who =>
    s.inWait who fun w =>
      if w.stage = .commit ∧ (s.chan.rq.findPid who.pid).all (fun t => t.state != .blocked) then
        some (s.goTo who (.waiting { w with stage := .prepare }))
      else none
  | .wakeOther who pid => s.idle who (some (s.goTo who (.waking [pid] none)))
  | .kwake who locked =>
    match s.place who with
    | .waking (pid :: pids) more =>
      if pid = 0 then some (s.goTo who (.waking pids more))
      else if locked then
        if s.rqHeld = false then
          some ({ s with chan := s.chan.wakeKwaiter pid }.goTo who (.waking pids more))
        else none
      else some (s.goTo who (.deferring pid 0 pids more))
    | _ => none
  | .defer who =>
    match s.place who with
    | .deferring pid slot pids more =>
      if slot < kwakeDeferSlots then
        if s.deferred slot = 0 then
          some ({ s with deferred := update s.deferred slot pid }.goTo who
            (.noting pids more))
        else some (s.goTo who (.deferring pid (slot + 1) pids more))
      else some ({ s with overflow := true }.goTo who (.noting pids more))
    | _ => none
  | .note who =>
    match s.place who with
    | .noting pids more => some ({ s with pending := true }.goTo who (.waking pids more))
    | _ => none
  | .wakesDone who =>
    if s.place who = .waking [] none then some (s.goTo who .idle) else none
  | .serviceSwap who =>
    s.idle who
      (if s.pending then some ({ s with pending := false }.goTo who .swapped) else some s)
  | .serviceLock who locked =>
    if s.place who = .swapped then
      if locked then
        if s.rqHeld = false then some ({ s with rqHeld := true }.goTo who .serving) else none
      else some ({ s with pending := true }.goTo who .idle)
    else none
  | .serviceOverflow who =>
    if s.place who = .serving then
      some
        ((if s.overflow then { s with overflow := false, chan := s.chan.wakeAllKwaiters }
          else s).goTo who (.draining 0))
    else none
  | .drain who =>
    match s.place who with
    | .draining slot =>
      if slot < kwakeDeferSlots then
        some
          ({ s with
            deferred := update s.deferred slot 0
            chan :=
              if s.deferred slot = 0 then s.chan else s.chan.wakeKwaiter (s.deferred slot)
            }.goTo who (.draining (slot + 1)))
      else some ({ s with rqHeld := false }.goTo who .idle)
    | _ => none
  | .signal pid =>
    if s.rqHeld = false then
      some
        { s with
          chan :=
            { s.chan with
              rq := s.chan.rq.modifyPid pid fun t =>
                if t.state = .blocked then { t with state := .ready } else t } }
    else none
  | .tick now timerfdTags =>
    if s.rqHeld = false then
      some { s with chan := (s.chan.wakeDuePollDeadlines pollWaitChannel now timerfdTags).2 }
    else none

/-- Nothing waits and nothing is held. -/
structure Init (s : Ksync) : Prop where
  sound : s.chan.Sound
  place : ∀ c, s.place c = .idle
  rqHeld : s.rqHeld = false
  deferred : ∀ i, s.deferred i = 0
  pending : s.pending = false
  overflow : s.overflow = false
  holders : ∀ n, (s.ledger n).holders = []
  counts : ∀ n, (s.ledger n).ups = 0 ∧ (s.ledger n).downs = 0
  lock : ∀ n, match s.lock n with
    | .sema q => 0 ≤ q.count ∧ q.count < 2 ^ 63 ∧ q.waiters = [] ∧ (s.ledger n).initial = q.count
    | .mutex m => m.owner = 0 ∧ m.waiters = []
    | .rwlock l => l.readers = 0 ∧ l.writer = false ∧ l.waiters = []

end Ksync

end Leandros.Sched
