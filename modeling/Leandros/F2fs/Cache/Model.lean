import Leandros.Lib.Machine

/-!
# Leandros.F2fs.Cache.Model

The block cache of the F2FS server (`servers/f2fs/src/lib.rs`), the device under it, and who
works on them.

Everything that touches the cache does so with `F2FS_MOUNTS` held. A request holds it from its
start to its end; if it needs a block that is not cached, it is doomed: it runs on without
effect, what it changed is undone, and the blocks it missed are read with the lock dropped. A
checkpoint copies the dirty blocks under the lock, writes them without it, and takes the lock
again to unpin them. So each use of the cache is a step here, and so is each block that moves
between the device and somebody who does not hold the lock.

Blocks have any contents `D`, their bytes apart from the access times of inodes, which `lazytime`
stores into clean blocks (`get_clean_mut`) and never counts as a change; `0` is a block of zeros.
Allocations that may fail are answered by the step (`Alloc`). The device makes no errors.
-/

namespace Leandros.F2fs

open Function (update)

/-- `CACHE_CHUNK`. -/
def cacheChunk : Nat := 256

/-- `GEN_BLK_SLOTS`. -/
def genBlkSlots : Nat := 4096

/-- `FETCH_MAX`. -/
def fetchMax : Nat := 32

/-- `MISS_BATCH`. -/
def missBatch : Nat := 16

/-- `FETCH_GAP`. -/
def fetchGap : Nat := 4

/-- A slot: its `SlotMeta` and its part of `chunks`. -/
structure Slot (D : Type) where
  /-- `blk_no`; `NULL_BLK` is `none`. -/
  blk : Option Nat
  dirty : Bool
  wb : Bool
  uep : Nat
  data : D

def Slot.pinned {D : Type} (s : Slot D) : Bool := s.dirty || s.wb

/-- The slot's block is written to the device; there is no block `NULL_BLK` on it. -/
def Slot.writeTo {D : Type} (s : Slot D) (dev : Nat → D) : Nat → D :=
  match s.blk with
  | some blk => update dev blk s.data
  | none => dev

/-- `PROBE_OFF`, `PROBE_ON` and `PROBE_MISSED`. -/
inductive Probe
  | off | on | missed
  deriving DecidableEq

/-- `Undo`; the contents of a slot that the request installed (`UNDO_NEW`) are `none`. -/
structure Undo (D : Type) where
  i : Nat
  blk : Option Nat
  dirty : Bool
  wb : Bool
  data : Option D

/-- The answers to allocations: a chunk of slots, a chunk past the cap, a place in `undo` and
one in `undo_data`. -/
structure Alloc where
  grow : Bool
  growPast : Bool
  undo : Bool
  undoData : Bool
  deriving DecidableEq

/-- `BlockCache`; the hash index is a search, and the lists of indices are lists. -/
structure BlockCache (D : Type) where
  slots : List (Slot D)
  cap : Nat
  /-- The evictable slots, the most recently used first. -/
  lru : List Nat
  probe : Probe
  misses : List (Nat × Nat)
  devBlocks : Nat
  /-- `FSYNCBATCH_ON`. -/
  batch : Bool
  /-- The newest first. -/
  undo : List (Undo D)
  ep : Nat
  gens : Nat → Nat

namespace BlockCache

variable {D : Type}

/-- `BlockCache::new`. -/
def new (cap devBlocks : Nat) (batch : Bool) : BlockCache D :=
  ⟨[], cap, [], .off, [], devBlocks, batch, [], 1, fun _ => 0⟩

/-- `gen_idx`. -/
def genIdx (blk : Nat) : Nat :=
  (blk * 0x9E3779B97F4A7C15 % 2 ^ 64) / 2 ^ 52 % genBlkSlots

/-- `blk_gen`. -/
def blkGen (c : BlockCache D) (blk : Nat) : Nat := c.gens (genIdx blk)

/-- `find`. -/
def find (c : BlockCache D) (blk : Nat) : Option Nat := c.slots.findIdx? fun s => s.blk == some blk

def modifySlot (c : BlockCache D) (i : Nat) (f : Slot D → Slot D) : BlockCache D :=
  { c with slots := c.slots.modify i f }

/-- `pinned`. -/
def pinned (c : BlockCache D) (i : Nat) : Bool := (c.slots[i]?).any Slot.pinned

/-- `set_flags`. -/
def setFlags (c : BlockCache D) (i : Nat) (dirty wb : Bool) : BlockCache D :=
  let was := c.pinned i
  let now := dirty || wb
  { c.modifySlot i fun s => { s with dirty := dirty, wb := wb } with
    lru := if was && !now then i :: c.lru else if !was && now then c.lru.erase i else c.lru }

/-- `touch`. -/
def touch (c : BlockCache D) (i : Nat) : BlockCache D :=
  if c.pinned i || c.lru.head? == some i then c else { c with lru := i :: c.lru.erase i }

/-- `grow`, when there is memory. -/
def grow [Zero D] (c : BlockCache D) : BlockCache D :=
  { c with
    slots := c.slots ++ List.replicate cacheChunk ⟨none, false, false, 0, 0⟩
    lru := c.lru ++ List.range' c.slots.length cacheChunk }

/-- A slot loses its block. -/
def detach (c : BlockCache D) (i : Nat) : BlockCache D :=
  c.modifySlot i fun s => { s with blk := none, uep := 0 }

/-- `install`. -/
def install (c : BlockCache D) (i blk : Nat) : BlockCache D :=
  let c := (c.modifySlot i fun s => { s with blk := some blk }).touch i
  { c with
    gens := update c.gens (genIdx blk) ((c.gens (genIdx blk) + 1) % 2 ^ 32) }

/-! ### Requests without I/O -/

/-- `probe_start`. -/
def probeStart (c : BlockCache D) : BlockCache D :=
  { c with probe := .on, ep := c.ep + 1, undo := [] }

/-- `note_miss`. -/
def noteMiss (c : BlockCache D) (blk n : Nat) : BlockCache D :=
  let n := min (max n 1) fetchMax
  match c.probe with
  | .on => { c with misses := [(blk, n)], probe := .missed }
  | .missed =>
    if !c.batch || blk == 0 || decide (c.devBlocks ≤ blk) || decide (missBatch ≤ c.misses.length)
        || c.misses.any (fun m => decide (m.1 ≤ blk) && decide (blk + n ≤ m.1 + m.2)) then
      c
    else { c with misses := c.misses ++ [(blk, n)] }
  | .off => c

/-- `probe_abandon`. -/
def probeAbandon (c : BlockCache D) : BlockCache D :=
  if c.probe = .on then { c with probe := .off } else c

/-- `log_slot`. -/
def logSlot (c : BlockCache D) (i : Nat) (new : Bool) (a : Alloc) : BlockCache D :=
  match c.slots[i]? with
  | some s =>
    if c.probe ≠ .on ∨ s.uep = c.ep then c
    else if a.undo = false ∨ (new = false ∧ a.undoData = false) then c.probeAbandon
    else
      { c.modifySlot i fun s => { s with uep := c.ep } with
        undo := ⟨i, s.blk, s.dirty, s.wb, if new then none else some s.data⟩ :: c.undo }
  | none => c

/-- One record of the undo log. -/
def undoOne (c : BlockCache D) (u : Undo D) : BlockCache D :=
  if (c.slots[u.i]?).bind Slot.blk ≠ u.blk then c
  else
    match u.data with
    | none =>
      let c := (c.setFlags u.i false false).modifySlot u.i fun s =>
        { s with blk := none, uep := 0 }
      { c with lru := c.lru.erase u.i ++ [u.i] }
    | some d =>
      ((c.modifySlot u.i fun s => { s with data := d }).setFlags u.i u.dirty u.wb).modifySlot u.i
        fun s => { s with uep := 0 }

/-- `probe_stop`: the misses, if the request is doomed. -/
def probeStop (c : BlockCache D) : Option (List (Nat × Nat)) × BlockCache D :=
  if c.probe = .missed then
    (some c.misses, { c.undo.foldl undoOne { c with probe := .off } with undo := [] })
  else (none, { c with probe := .off, undo := [] })

end BlockCache

/-! ### Fetch passes -/

/-- A `FetchRange`: first block and count. -/
abbrev FetchRange := Nat × Nat

/-- Join a miss to the last range, if they are near. -/
def joinFetch (out : List FetchRange) (m : Nat × Nat) : List FetchRange :=
  let e := m.1 + max m.2 1
  match out with
  | last :: out' =>
    let nend := max e (last.1 + last.2)
    if m.1 ≤ last.1 + last.2 + fetchGap ∧ nend - last.1 ≤ fetchMax then
      (last.1, nend - last.1) :: out'
    else (m.1, max m.2 1) :: out
  | [] => [(m.1, max m.2 1)]

/-- `plan_fetch`. -/
def planFetch (misses : List (Nat × Nat)) : List FetchRange :=
  (((misses.take missBatch).insertionSort fun a b => a.1 ≤ b.1).foldl joinFetch []).reverse

/-- A block of a fetch pass: the generation it had when the lock was dropped, and what was
read. -/
structure Fetch (D : Type) where
  blk : Nat
  gen : Nat
  data : Option D

/-- The blocks of the ranges, with their generations. -/
def BlockCache.capture {D : Type} (c : BlockCache D) (ranges : List FetchRange) : List (Fetch D) :=
  ranges.flatMap fun r => (List.range' r.1 r.2).map fun blk => ⟨blk, c.blkGen blk, none⟩

/-! ### The volume -/

/-- An unlocked checkpoint: its snapshot, what of it is not written yet, and its commit block. -/
structure Checkpoint (D : Type) where
  runs : List (Nat × D)
  todo : List (Nat × D)
  record : Nat × D

structure Volume (D : Type) where
  cache : BlockCache D
  dev : Nat → D
  /-- `WB_INFLIGHT`. -/
  inflight : Bool
  /-- The checkpoint that has `CP_MUTEX`. -/
  cp : Option (Checkpoint D)
  /-- The blocks of the two checkpoint packs' commit records. -/
  packs : Nat × Nat
  activePack : Bool
  /-- The task whose request holds `F2FS_MOUNTS`. -/
  request : Option Nat
  /-- The fetch pass of each task. -/
  pass : Nat → List (Fetch D)
  /-- What was last stored to each block through the cache, by requests that were not undone. -/
  stored : Nat → D
  /-- The same when the running request started. -/
  before : Nat → D

namespace Volume

variable {D : Type} [Zero D]

/-- The slot that `take_slot` takes, in the cache it has grown: the last evictable one, or (with
`false`) one that has to be written back. -/
def pickSlot (v : Volume D) (a : Alloc) : Option ((Nat × Bool) × BlockCache D) :=
  let c := v.cache
  let tailUsed := match c.lru.getLast? with
    | none => true
    | some i => ((c.slots[i]?).bind Slot.blk).isSome
  let c := if tailUsed && decide (c.slots.length < c.cap) && a.grow then c.grow else c
  let c := if c.lru.isEmpty && decide (c.slots.length < c.cap * 2) && a.growPast then c.grow else c
  match c.lru.getLast? with
  | some i => some ((i, true), c)
  | none =>
    match c.slots.findIdx? fun s => s.dirty && !s.wb with
    | some i => some ((i, false), c)
    | none => if v.inflight || c.slots.isEmpty then none else some ((0, false), c)

/-- `take_slot`. Not possible while it waits for a checkpoint's writes. -/
def takeSlot (v : Volume D) (a : Alloc) : Option (Nat × Volume D) :=
  (v.pickSlot a).map fun r =>
    let i := r.1.1
    if r.1.2 then (i, { v with cache := r.2.detach i })
    else
      let c := r.2.probeAbandon
      let dev := match c.slots[i]? with
        | some s => s.writeTo v.dev
        | none => v.dev
      (i, { v with cache := (c.setFlags i false false).detach i, dev := dev })

/-- `load`: the slot, or `none` for a request without I/O. -/
def load (v : Volume D) (blk : Nat) (a : Alloc) : Option (Option Nat × Volume D) :=
  match v.cache.find blk with
  | some i => some (some i, { v with cache := v.cache.touch i })
  | none =>
    if v.cache.probe ≠ .off then some (none, { v with cache := v.cache.noteMiss blk 1 })
    else
      (v.takeSlot a).map fun r =>
        (some r.1,
          { r.2 with
            cache := (r.2.cache.modifySlot r.1 fun s => { s with data := r.2.dev blk }).install
              r.1 blk })

/-- The contents of a slot. -/
def data (v : Volume D) (i : Nat) : D := ((v.cache.slots[i]?).map Slot.data).getD 0

/-- `read`: what it returns is a block of zeros for a request that is doomed by it. -/
def read (v : Volume D) (blk : Nat) (a : Alloc) : Option (D × Volume D) :=
  (v.load blk a).map fun r => ((r.1.map r.2.data).getD 0, r.2)

/-- Slot `i` gets new contents and is dirty. -/
def store (v : Volume D) (i blk : Nat) (d : D) : Volume D :=
  let c := v.cache.modifySlot i fun s => { s with data := d }
  { v with
    cache := c.setFlags i true ((c.slots[i]?).any Slot.wb)
    stored := update v.stored blk d }

/-- `write`. -/
def write (v : Volume D) (blk : Nat) (d : D) (a : Alloc) : Option (Volume D) :=
  if v.cache.probe = .missed then some v
  else
    match v.cache.find blk with
    | some i => some ({ v with cache := v.cache.logSlot i false a }.store i blk d)
    | none =>
      (v.takeSlot a).map fun r =>
        { r.2 with cache := (r.2.cache.install r.1 blk).logSlot r.1 true a }.store r.1 blk d

/-- `get_mut`, and the change made through it. -/
def getMut (v : Volume D) (blk : Nat) (f : D → D) (a : Alloc) : Option (Volume D) :=
  if v.cache.probe = .missed then some v
  else
    (v.load blk a).map fun r =>
      match r.1 with
      | some i => { r.2 with cache := r.2.cache.logSlot i false a }.store i blk (f (r.2.data i))
      | none => r.2

/-- `install_fetched`. -/
def installFetched (v : Volume D) (f : Fetch D) (a : Alloc) : Option (Volume D) :=
  match f.data with
  | none => none
  | some d =>
    if (v.cache.find f.blk).isSome ∨ v.cache.blkGen f.blk ≠ f.gen then some v
    else
      (v.takeSlot a).map fun r =>
        { r.2 with
          cache := (r.2.cache.modifySlot r.1 fun s => { s with data := d }).install r.1 f.blk }

/-- The slots with a property, in block order: their blocks and contents. -/
def snapshot (v : Volume D) (p : Slot D → Bool) : List (Nat × D) :=
  ((v.cache.slots.filter p).filterMap fun s => s.blk.map (·, s.data)).insertionSort
    fun a b => a.1 ≤ b.1

/-- Phase 1 of a checkpoint; `record` is the contents of the commit block. -/
def phase1 (v : Volume D) (record : D) : Volume D :=
  let runs := v.snapshot Slot.dirty
  let active := !v.activePack
  { v with
    cache :=
      { v.cache with
        slots := v.cache.slots.map fun s => if s.dirty then { s with dirty := false, wb := true } else s }
    cp := some ⟨runs, runs, (if active then v.packs.2 else v.packs.1, record)⟩
    activePack := active
    inflight := true }

/-- Phase 3: unpin. -/
def unpin (c : BlockCache D) (runs : List (Nat × D)) : BlockCache D :=
  runs.foldl
    (fun c r =>
      match c.find r.1 with
      | some i =>
        match c.slots[i]? with
        | some s => if s.wb then c.setFlags i s.dirty false else c
        | none => c
      | none => c)
    c

/-- `flush_all`, of the synchronous checkpoint, and its commit block. -/
def flushAll (v : Volume D) (record : D) : Volume D :=
  let active := !v.activePack
  let dev := (v.snapshot Slot.pinned).foldl (fun dev r => update dev r.1 r.2) v.dev
  { v with
    cache := (List.range v.cache.slots.length).foldl
      (fun c i => if c.pinned i then c.setFlags i false false else c) v.cache
    dev := update dev (if active then v.packs.2 else v.packs.1) record
    activePack := active }

end Volume

/-! ### The machine -/

inductive CacheAction (D : Type)
  /-- A request takes the lock; `noio`: it may drop it for its reads. -/
  | start (who : Nat) (noio : Bool)
  | read (who blk : Nat) (a : Alloc)
  | write (who blk : Nat) (d : D) (a : Alloc)
  | getMut (who blk : Nat) (f : D → D) (a : Alloc)
  /-- A run of blocks that the request needs and that are not cached. -/
  | noteMiss (who blk n : Nat)
  /-- The request ends; a doomed one is undone, and its fetch pass begins. -/
  | finish (who : Nat)
  /-- A block of the pass is read. -/
  | fetch (who k : Nat)
  | install (who k : Nat) (a : Alloc)
  /-- The pass ends; what was not installed (read by somebody else, no memory) is not. -/
  | passDone (who : Nat)
  | phase1 (record : D)
  /-- A block of the snapshot is written. -/
  | writeBack
  /-- The commit block is written. -/
  | commit
  | phase3
  /-- A synchronous checkpoint. -/
  | flushAll (record : D)

namespace Volume

variable {D : Type} [Zero D]

/-- A step of the request that holds the lock. -/
def inRequest (v : Volume D) (who : Nat) (v' : Option (Volume D)) : Option (Volume D) :=
  if v.request = some who then v' else none

/-- A step that takes the lock and releases it. -/
def locked (v : Volume D) (v' : Option (Volume D)) : Option (Volume D) :=
  if v.request = none then v' else none

/-- The step an action takes, if it can be taken. -/
def step (v : Volume D) : CacheAction D → Option (Volume D)
  | .start who noio =>
    v.locked
      (if (v.pass who).isEmpty then
        some
          { v with
            cache := if noio then v.cache.probeStart else { v.cache with probe := .off }
            request := some who
            before := v.stored }
      else none)
  | .read who blk a => v.inRequest who ((v.read blk a).map Prod.snd)
  | .write who blk d a => v.inRequest who (v.write blk d a)
  | .getMut who blk f a => v.inRequest who (v.getMut blk f a)
  | .noteMiss who blk n => v.inRequest who (some { v with cache := v.cache.noteMiss blk n })
  | .finish who =>
    v.inRequest who
      (match v.cache.probeStop with
      | (none, c) => some { v with cache := c, request := none }
      | (some misses, c) =>
        some
          { v with
            cache := c
            request := none
            pass := update v.pass who (c.capture (planFetch misses))
            stored := v.before })
  | .fetch who k =>
    some
      { v with
        pass := update v.pass who
          ((v.pass who).modify k fun f => { f with data := some (v.dev f.blk) }) }
  | .install who k a =>
    v.locked (((v.pass who)[k]?).bind fun f => v.installFetched f a)
  | .passDone who => some { v with pass := update v.pass who [] }
  | .phase1 record => v.locked (if v.cp.isNone then some (v.phase1 record) else none)
  | .writeBack =>
    match v.cp with
    | some ⟨runs, r :: todo, record⟩ =>
      some { v with dev := update v.dev r.1 r.2, cp := some ⟨runs, todo, record⟩ }
    | _ => none
  | .commit =>
    match v.cp with
    | some ⟨_, [], record⟩ =>
      if v.inflight then
        some { v with dev := update v.dev record.1 record.2, inflight := false }
      else none
    | _ => none
  | .phase3 =>
    v.locked
      (match v.cp with
      | some k =>
        if v.inflight then none else some { v with cache := unpin v.cache k.runs, cp := none }
      | none => none)
  | .flushAll record => v.locked (if v.inflight then none else some (v.flushAll record))

/-- A volume just mounted. -/
def Init (v : Volume D) : Prop :=
  (∃ cap devBlocks batch, v.cache = .new cap devBlocks batch) ∧ v.inflight = false ∧ v.cp = none ∧
    v.request = none ∧ (∀ who, v.pass who = []) ∧ v.stored = v.dev

end Volume

end Leandros.F2fs
