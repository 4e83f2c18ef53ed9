import Leandros.Mm.PageRef

/-!
# Leandros.Mm.PageCache.Model

**The page cache** of `mm/src/pagecache.rs`, as the code computes it. A function
below is what runs under one hold of the `CACHE` lock: one atomic step.

A page of the index is a frame with its contents, a hole, or a placeholder of a fill that reads
without the lock. The placeholder carries the token of its fill, so that the end of the fill
recognises its own; what happens to the page meanwhile is noted in its `stale` flag. `World` adds
the frames with their reference counts and the bytes in them.

File positions and page indices are plain naturals (the VFS keeps offsets below
`2 ^ 63`); the fill token is a `u32` and wraps as the code says. Left out:
readahead and relatime state, and the cumulative statistics, which nothing
modelled reads.
-/

namespace Leandros.Mm.PageCache

/-- `ST_FILLING`, `ST_UPTODATE`. -/
inductive PageState
  | filling
  | uptodate
  deriving Repr, DecidableEq

/-- The `F_*` bits of a page. -/
structure Flags where
  ref : Bool := false
  dirty : Bool := false
  exec : Bool := false
  stale : Bool := false
  mapped : Bool := false
  deriving Repr, DecidableEq

structure Page where
  /-- The frame (0: a placeholder, or emptied by the emergency path). -/
  phys : Nat
  token : Nat
  state : PageState
  flags : Flags
  /-- A placeholder has no frame yet. -/
  empty : state = .filling → phys = 0
  deriving DecidableEq

namespace Page

/-- Up to date, with a frame. -/
def published (p : Page) : Bool := p.state == .uptodate && p.phys != 0

/-- The placeholder of the fill `token`. -/
def placeholder (token : Nat) : Page := ⟨0, token, .filling, {}, fun _ => rfl⟩

/-- The frame is read: up to date, and referenced. -/
def publish (p : Page) (phys : Nat) : Page := ⟨phys, p.token, .uptodate, { ref := true }, nofun⟩

/-- The emergency path took the frame. -/
def emptied (p : Page) : Page :=
  { p with phys := 0, flags := { p.flags with mapped := false }, empty := fun _ => rfl }

def fillingFor (p : Page) (token : Nat) : Bool := p.state == .filling && p.token == token

def setStale (p : Page) : Page := { p with flags := { p.flags with stale := true } }
def setRef (p : Page) (v : Bool) : Page := { p with flags := { p.flags with ref := v } }
def setDirty (p : Page) (v : Bool) : Page := { p with flags := { p.flags with dirty := v } }
def setMapped (p : Page) (v : Bool) : Page := { p with flags := { p.flags with mapped := v } }

/-- Handed to a mapping. -/
def setHanded (p : Page) (exec : Bool) : Page :=
  { p with flags := { p.flags with ref := true, mapped := true, exec := p.flags.exec || exec } }

end Page

structure FileEnt where
  pages : OrdMap Page
  size : Nat
  sizeKnown : Bool
  orphan : Bool
  users : Nat
  ndirty : Nat

def FileEnt.new : FileEnt := ⟨.empty, 0, false, false, 0, 0⟩

/-- `CACHE` and the atomics beside it. -/
structure Cache where
  files : OrdMap FileEnt
  hand : Nat × Nat
  nextToken : Nat
  /-- `CACHED`, `DIRTY`, `FILLING`, `MAPPED`, `HOLES`, `EMERGENCY_HAND`. -/
  cached : Nat
  dirty : Nat
  filling : Nat
  mapped : Nat
  holes : Nat
  emergencyHand : Nat

open Cache

def Cache.init : Cache := ⟨.empty, (0, 0), 1, 0, 0, 0, 0, 0, 0⟩

/-- The cache, the frames and their bytes. -/
structure World where
  cache : Cache
  frames : Frames
  mem : Nat → Nat → Nat

/-- `BATCH` of `reclaim_pages`. -/
def batch : Nat := 512

namespace Cache

/-- Put a changed file back. -/
def setFile (c : Cache) (key : Nat) (fe : FileEnt) : Cache :=
  { c with files := c.files.insert key fe }

/-- The entry of a page. -/
def page? (c : Cache) (key pg : Nat) : Option Page :=
  (c.files.get? key).bind fun fe => fe.pages.get? pg

/-! ### File-level state -/

/-- `note_gone`: the counters when a page leaves its file. -/
def noteGone (c : Cache) (fe : FileEnt) (p : Page) : Cache × FileEnt :=
  if p.published then
    ({ c with
        cached := wsub c.cached 1
        dirty := if p.flags.dirty then wsub c.dirty 1 else c.dirty
        mapped := if p.flags.mapped then wsub c.mapped 1 else c.mapped },
      if p.flags.dirty then { fe with ndirty := fe.ndirty - 1 } else fe)
  else if p.state = .filling then ({ c with filling := wsub c.filling 1 }, fe)
  else (c, fe)

def fileSize (c : Cache) (key : Nat) : Option Nat :=
  (c.files.get? key).bind fun fe => if fe.sizeKnown then some fe.size else none

def setSize (c : Cache) (key size : Nat) : Cache :=
  if key = 0 then c
  else c.setFile key { (c.files.get? key).getD .new with size := size, sizeKnown := true }

def noteSize (c : Cache) (key size : Nat) : Cache :=
  match c.files.get? key with
  | some fe => if fe.sizeKnown then c.setFile key { fe with size := size } else c
  | none => c

def keyGet (c : Cache) (key : Nat) : Cache :=
  if key = 0 then c
  else
    let fe := (c.files.get? key).getD .new
    c.setFile key { fe with users := (fe.users + 1) % 2 ^ 32 }

/-! ### Fills -/

/-- Is the page absent for `begin_fill`: no entry, or one emptied by the
emergency path. -/
def absent (pages : OrdMap Page) (pg : Nat) : Bool :=
  match pages.get? pg with
  | none => true
  | some p => p.state == .uptodate && p.phys == 0

/-- The insertion loop of `begin_fill`. -/
def fillPages (token last : Nat) (pages : OrdMap Page) (pg : Nat) : Nat → OrdMap Page × Nat
  | 0 => (pages, 0)
  | want + 1 =>
    if pg > last then (pages, 0)
    else if absent pages pg then
      let r := fillPages token last (pages.insert pg (.placeholder token)) (pg + 1) want
      (r.1, r.2 + 1)
    else (pages, 0)

/-- `begin_fill`: the fill's token and page count. -/
def beginFill (c : Cache) (key pgoff want : Nat) : Option (Nat × Nat) × Cache :=
  let token := c.nextToken
  let c := { c with nextToken := max ((c.nextToken + 1) % 2 ^ 32) 1 }
  match c.files.get? key with
  | none => (none, c)
  | some fe =>
    if !fe.sizeKnown || fe.size == 0 then (none, c)
    else
      let r := fillPages token ((fe.size - 1) / pageSize) fe.pages pgoff want
      if r.2 = 0 then (none, c)
      else (some (token, r.2),
        { c.setFile key { fe with pages := r.1 } with filling := wadd c.filling r.2 })

/-- What `end_fill` does with one frame. -/
inductive FillEnd
  | notOurs
  | discard
  | publish
  deriving Repr, DecidableEq

/-- Is the page's placeholder this fill's, and still wanted? -/
def fillEnd (pages : OrdMap Page) (token valid i pg : Nat) : FillEnd :=
  match pages.get? pg with
  | some p =>
    if p.fillingFor token then
      if p.flags.stale || decide (i * pageSize ≥ valid) then .discard else .publish
    else .notOurs
  | none => .notOurs

/-- The state of the `end_fill` loop: the pages, the frames to free, the
published frames and the placeholders that ended. -/
structure FillLoop where
  pages : OrdMap Page
  freed : List Nat
  published : Nat
  ended : Nat

/-- One frame of `end_fill`, the `i`-th, for page `pg`. -/
def FillLoop.step (token valid : Nat) (s : FillLoop) (i pg phys : Nat) : FillLoop :=
  match fillEnd s.pages token valid i pg with
  | .notOurs => { s with freed := s.freed ++ [phys] }
  | .discard => { s with
      pages := s.pages.erase pg, freed := s.freed ++ [phys], ended := s.ended + 1 }
  | .publish => { s with
      pages := s.pages.modify pg fun p => p.publish phys
      published := s.published + 1
      ended := s.ended + 1 }

def endFillLoop (token valid : Nat) (s : FillLoop) (i pg : Nat) : List Nat → FillLoop
  | [] => s
  | phys :: frames => endFillLoop token valid (s.step token valid i pg phys) (i + 1) (pg + 1) frames

/-- The removal loop of `abort_fill`: the pages and the placeholders removed. -/
def abortPages (token : Nat) (pages : OrdMap Page) (pg : Nat) : Nat → OrdMap Page × Nat
  | 0 => (pages, 0)
  | n + 1 =>
    if ((pages.get? pg).map (·.fillingFor token)).getD false then
      let r := abortPages token (pages.erase pg) (pg + 1) n
      (r.1, r.2 + 1)
    else abortPages token pages (pg + 1) n

def abortFill (c : Cache) (key token pgoff n : Nat) : Cache :=
  match c.files.get? key with
  | none => c
  | some fe =>
    let r := abortPages token fe.pages pgoff n
    { c.setFile key { fe with pages := r.1 } with filling := wsub c.filling r.2 }

/-! ### Mappings -/

/-- `mark_dirty`: false if the page is not the cached frame `phys`. -/
def markDirty (c : Cache) (key pgoff phys : Nat) : Bool × Cache :=
  match c.files.get? key with
  | none => (false, c)
  | some fe =>
    match fe.pages.get? pgoff with
    | none => (false, c)
    | some p =>
      if p.state ≠ .uptodate ∨ p.phys ≠ phys then (false, c)
      else if p.flags.dirty then (true, c)
      else (true, { c.setFile key { fe with
        pages := fe.pages.insert pgoff (p.setDirty true), ndirty := fe.ndirty + 1 } with
          dirty := wadd c.dirty 1 })

/-- A dirty page pinned for write-back. -/
structure DirtyPage where
  key : Nat
  pgoff : Nat
  phys : Nat
  deriving Repr, DecidableEq

def stillDirty (c : Cache) (d : DirtyPage) : Bool :=
  match c.page? d.key d.pgoff with
  | some p => p.state == .uptodate && p.phys == d.phys && p.flags.dirty
  | none => false

/-- The dirty pages `take_dirty` picks from one file. -/
def dirtyOf (fr : Frames) (mapped : Bool) (key : Nat) (fe : FileEnt) : List DirtyPage :=
  if fe.ndirty = 0 then []
  else fe.pages.entries.filterMap fun (pg, p) =>
    if p.published && p.flags.dirty && (mapped || !decide (fr.get p.phys > 1)) then
      some ⟨key, pg, p.phys⟩
    else none

/-- The pages `take_dirty` adds to `out`. -/
def pickDirty (c : Cache) (fr : Frames) (lo hi : Nat) (mapped : Bool) (max : Nat)
    (out : List DirtyPage) : List DirtyPage :=
  if c.dirty = 0 then []
  else ((c.files.entries.filter fun e => decide (lo ≤ e.1) && decide (e.1 ≤ hi)).flatMap
    fun e => dirtyOf fr mapped e.1 e.2).take (max - out.length)

/-! ### Writes -/

/-- A cached page pinned for a write-through copy. -/
structure Pinned where
  pgoff : Nat
  phys : Nat
  exec : Bool
  deriving Repr, DecidableEq

/-- The effect of `wt_pin` on the pages `first..=last`: doom fills in flight. -/
def doomRange (first last : Nat) (pages : OrdMap Page) : OrdMap Page :=
  pages.mapVals fun pg p =>
    if first ≤ pg ∧ pg ≤ last ∧ p.state = .filling then p.setStale else p

/-- The pages `wt_pin` pins. -/
def pinnedIn (first last : Nat) (pages : OrdMap Page) : List Pinned :=
  pages.entries.filterMap fun (pg, p) =>
    if first ≤ pg ∧ pg ≤ last ∧ p.state ≠ .filling ∧ p.phys ≠ 0 then
      some ⟨pg, p.phys, p.flags.exec⟩
    else none

/-! ### The clock -/

/-- One page under the clock hand: what becomes of it, and whether it goes. -/
def clockPage (fr : Frames) (orphan : Bool) (p : Page) : Page × Bool :=
  if p.state ≠ .uptodate then (p, false)
  else if p.phys = 0 then (p, true)
  else if p.flags.dirty then (p, false)
  else if fr.get p.phys > 1 then (p.setMapped true, false)
  else
    let p := p.setMapped false
    if p.flags.ref && !orphan then (p.setRef false, false) else (p, true)

/-- `MAPPED` after a page's hint went from `old` to `new`. -/
def countMapped (n : Nat) (old new : Bool) : Nat :=
  if !old && new then wadd n 1 else if old && !new then wsub n 1 else n

/-- The state of one `reclaim_pages` batch. -/
structure Scan where
  cache : Cache
  victims : List (Nat × Nat)
  scanned : Nat

/-- The batch is full. -/
def Scan.full (s : Scan) (need : Nat) : Bool :=
  decide (s.scanned ≥ batch) || decide (s.victims.length ≥ need)

/-- Look at page `pg` of file `k`. -/
def Scan.visit (fr : Frames) (s : Scan) (k pg : Nat) : Scan :=
  match s.cache.files.get? k with
  | none => s
  | some fe =>
    match fe.pages.get? pg with
    | none => s
    | some p =>
      let r := clockPage fr fe.orphan p
      { cache := { s.cache.setFile k { fe with pages := fe.pages.insert pg r.1 } with
          mapped := countMapped s.cache.mapped p.flags.mapped r.1.flags.mapped }
        victims := if r.2 then s.victims ++ [(k, pg)] else s.victims
        scanned := s.scanned + 1 }

/-- The pages of one file; the page the batch stopped at, if it did. -/
def scanPages (fr : Frames) (need k : Nat) (s : Scan) : List Nat → Scan × Option Nat
  | [] => (s, none)
  | pg :: pgs =>
    if s.full need then (s, some pg) else scanPages fr need k (s.visit fr k pg) pgs

/-- Where the hand goes once file `k` is done. -/
def nextHand (k : Nat) : Nat × Nat := if k + 1 < 2 ^ 64 then (k + 1, 0) else (0, 0)

/-- The files of one batch, each from its start page. -/
def scanFiles (fr : Frames) (need : Nat) (s : Scan) (hand : Nat × Nat) :
    List (Nat × Nat) → Scan × (Nat × Nat)
  | [] => (s, hand)
  | (k, hp) :: files =>
    let pgs := ((s.cache.files.get? k).map fun fe => fe.pages.keysFrom hp).getD []
    match scanPages fr need k s pgs with
    | (s, some pg) => (s, (k, pg))
    | (s, none) =>
      if s.full need then (s, nextHand k) else scanFiles fr need s (nextHand k) files

/-- The order of a batch: from the hand to the end, then once around. -/
def clockOrder (c : Cache) : List (Nat × Nat) :=
  (c.files.keysFrom c.hand.1).map (fun k => (k, if k = c.hand.1 then c.hand.2 else 0)) ++
    (c.files.keysFrom 0).map fun k => (k, 0)

/-- Take a victim out of the index; its frame, if it had one. -/
def evict (c : Cache) (v : Nat × Nat) : Cache × List Nat :=
  match c.files.get? v.1 with
  | none => (c, [])
  | some fe =>
    let gone := match fe.pages.get? v.2 with
      | some p => if p.phys ≠ 0 then [p.phys] else []
      | none => []
    let fe := { fe with pages := fe.pages.erase v.2 }
    let c := { c with cached := wsub c.cached gone.length }
    if fe.pages.isEmpty && fe.users == 0 then ({ c with files := c.files.erase v.1 }, gone)
    else (c.setFile v.1 fe, gone)

def evictAll (c : Cache) : List (Nat × Nat) → Cache × List Nat
  | [] => (c, [])
  | v :: vs =>
    let r := c.evict v
    let rest := evictAll r.1 vs
    (rest.1, r.2 ++ rest.2)

/-- One batch: the cache, the evicted frames and the entries scanned. -/
def reclaimBatch (c : Cache) (fr : Frames) (need : Nat) : Cache × List Nat × Nat :=
  let r := scanFiles fr need ⟨c, [], 0⟩ c.hand c.clockOrder
  let e := { r.1.cache with hand := r.2 }.evictAll r.1.victims
  (e.1, e.2, r.1.scanned)

/-- The rotating order of one half sweep of `emergency_reclaim`. -/
def sweepPages (c : Cache) (skip : Nat) (firstHalf : Bool) : List (Nat × Nat) :=
  let files := if firstHalf then c.files.entries.drop skip else c.files.entries.take skip
  files.flatMap fun e => (e.2.pages.keysFrom 0).map fun pg => (e.1, pg)

/-- The four half sweeps: the first two spare referenced pages. -/
def emergencyOrder (c : Cache) (skip : Nat) : List (Bool × (Nat × Nat)) :=
  [(true, true), (true, false), (false, true), (false, false)].flatMap fun (spare, half) =>
    (c.sweepPages skip half).map fun v => (spare, v)

end Cache

namespace World

/-! ### Steps that touch frames -/

/-- `drop_file`: every page of the file goes. -/
def dropFile (w : World) (key : Nat) : World :=
  if key = 0 then w
  else
    match w.cache.files.get? key with
    | none => w
    | some fe =>
      let c := (fe.pages.entries.foldl (fun (r : Cache × FileEnt) e => r.1.noteGone r.2 e.2)
        (w.cache, fe)).1
      let gone := fe.pages.entries.filterMap fun e => if e.2.published then some e.2.phys else none
      { w with
        cache := { c with files := w.cache.files.erase key }
        frames := w.frames.unrefAll gone }

/-- `key_put`; with `pcache=0` the last user drops the file. -/
def keyPut (w : World) (readCache : Bool) (key : Nat) : World :=
  if key = 0 then w
  else
    match w.cache.files.get? key with
    | none => w
    | some fe =>
      let w := { w with cache := w.cache.setFile key { fe with users := fe.users - 1 } }
      if fe.users - 1 = 0 ∧ !readCache then w.dropFile key else w

/-- `pin_run`'s answer. -/
inductive Run
  | hit (n : Nat)
  | miss
  | busy
  deriving Repr, DecidableEq

/-- The consecutive published pages from `pg`, marked referenced. -/
def pinPages (pages : OrdMap Page) (pg : Nat) : Nat → OrdMap Page × List Nat
  | 0 => (pages, [])
  | n + 1 =>
    match pages.get? pg with
    | some p =>
      if p.published then
        let r := pinPages (pages.insert pg (p.setRef true)) (pg + 1) n
        (r.1, p.phys :: r.2)
      else (pages, [])
    | none => (pages, [])

def pinRun (w : World) (key pgoff n : Nat) : Run × List Nat × World :=
  match w.cache.files.get? key with
  | none => (.miss, [], w)
  | some fe =>
    let r := pinPages fe.pages pgoff n
    if r.2.isEmpty then
      (if n ≠ 0 ∧ (fe.pages.get? pgoff).map (·.state) = some .filling then .busy else .miss, [], w)
    else (.hit r.2.length, r.2, { w with
      cache := w.cache.setFile key { fe with pages := r.1 }, frames := w.frames.incMany r.2 })

/-- `unpin`, and any other holder of references letting go. -/
def unpin (w : World) (frames : List Nat) : World :=
  { w with frames := w.frames.unrefAll frames }

/-- `end_fill`: publish, or free, the frames read for the fill `token`. -/
def endFill (w : World) (key token pgoff : Nat) (frames : List Nat) (valid : Nat) : World :=
  match w.cache.files.get? key with
  | none => { w with frames := w.frames.freeAll frames }
  | some fe =>
    let r := endFillLoop token valid ⟨fe.pages, [], 0, 0⟩ 0 pgoff frames
    { w with
      cache := { w.cache.setFile key { fe with pages := r.pages } with
        filling := wsub w.cache.filling r.ended, cached := wadd w.cache.cached r.published }
      frames := w.frames.freeAll r.freed }

/-- `lookup`: the cached frame, with a reference for the caller's mapping. -/
def lookup (w : World) (key pgoff : Nat) (exec : Bool) : Option Nat × World :=
  if key = 0 then (none, w)
  else
    match w.cache.files.get? key with
    | none => (none, w)
    | some fe =>
      match fe.pages.get? pgoff with
      | none => (none, w)
      | some p =>
        if !p.published then (none, w)
        else
          let fe := { fe with pages := fe.pages.insert pgoff (p.setHanded exec) }
          (some p.phys, { w with
            cache := { w.cache.setFile key fe with
              mapped := countMapped w.cache.mapped p.flags.mapped true }
            frames := w.frames.inc p.phys })

/-- `take_dirty`: pin dirty pages for write-back. -/
def takeDirty (w : World) (lo hi : Nat) (mapped : Bool) (max : Nat)
    (out : List DirtyPage) : List DirtyPage × World :=
  let picked := w.cache.pickDirty w.frames lo hi mapped max out
  (out ++ picked, { w with frames := w.frames.incMany (picked.map (·.phys)) })

/-- `writeback_done`: clean unless a mapping may still write it; unpin. -/
def writebackDone (w : World) (d : DirtyPage) (ok : Bool) : World :=
  let c := match w.cache.files.get? d.key with
    | none => w.cache
    | some fe =>
      match fe.pages.get? d.pgoff with
      | none => w.cache
      | some p =>
        if ok ∧ p.phys = d.phys ∧ p.flags.dirty ∧ w.frames.get d.phys ≤ 2 then
          { w.cache.setFile d.key { fe with
              pages := fe.pages.insert d.pgoff (p.setDirty false)
              ndirty := fe.ndirty - 1 } with dirty := wsub w.cache.dirty 1 }
        else w.cache
  { w with cache := c, frames := w.frames.unrefOrFree d.phys 0 }

/-- `wt_pin`: pin the cached pages of a write, doom its fills in flight. -/
def wtPin (w : World) (key pos len : Nat) : List Pinned × World :=
  if len = 0 then ([], w)
  else
    match w.cache.files.get? key with
    | none => ([], w)
    | some fe =>
      let first := pos / pageSize
      let last := (pos + len - 1) / pageSize
      let pins := pinnedIn first last fe.pages
      (pins, { w with
        cache := w.cache.setFile key { fe with pages := doomRange first last fe.pages }
        frames := w.frames.incMany (pins.map (·.phys)) })

/-- `wt_done`. -/
def wtDone (w : World) (pins : List Pinned) : World :=
  { w with frames := w.frames.unrefAll (pins.map (·.phys)) }

/-- Zero the bytes `[lo, hi)` of a frame. -/
def zero (w : World) (phys lo hi : Nat) : World :=
  { w with mem := Function.update w.mem phys fun off =>
      if lo ≤ off ∧ off < hi then 0 else w.mem phys off }

/-- `extend`: the bytes past an old end of file read zero. -/
def extend (w : World) (key from' upto : Nat) : World :=
  if upto ≤ from' then w
  else
    let pg := from' / pageSize
    let off := from' % pageSize
    if off = 0 then w
    else
      let stop := min (upto - pg * pageSize) pageSize
      match w.cache.files.get? key with
      | none => w
      | some fe =>
        match fe.pages.get? pg with
        | none => w
        | some p =>
          if p.state = .filling then { w with
            cache := w.cache.setFile key { fe with pages := fe.pages.insert pg p.setStale } }
          else if p.phys = 0 ∨ stop ≤ off then w
          else w.zero p.phys off stop

/-- The first page past the end of a file of `size` bytes. The sum is a `u64`: for
the last `PAGE_SIZE - 1` sizes it wraps, and then every page is past the end. -/
def firstGone (size : Nat) : Nat := wadd size (pageSize - 1) / pageSize

/-- The pages past the new end leave the file; those being filled are doomed. -/
def truncatePages (firstGone : Nat) (r : Cache × FileEnt) : Cache × FileEnt :=
  (r.2.pages.keysFrom firstGone).foldl (fun r pg =>
    match r.2.pages.get? pg with
    | none => r
    | some p =>
      if p.state = .filling then (r.1, { r.2 with pages := r.2.pages.insert pg p.setStale })
      else r.1.noteGone { r.2 with pages := r.2.pages.erase pg } p) r

/-- `truncate`: the file now ends at `size`. -/
def truncate (w : World) (key size : Nat) : World :=
  match w.cache.files.get? key with
  | none => w
  | some fe =>
    let fe := if fe.sizeKnown then { fe with size := size } else fe
    let gone := fe.pages.entries.filterMap fun e =>
      if decide (firstGone size ≤ e.1) && e.2.published then some e.2.phys else none
    let r := truncatePages (firstGone size) (w.cache, fe)
    let c := r.1
    let fe := r.2
    let off := size % pageSize
    let pg := size / pageSize
    let w := if off = 0 then { w with cache := c.setFile key fe }
      else
        match fe.pages.get? pg with
        | none => { w with cache := c.setFile key fe }
        | some p =>
          if p.state = .filling then
            { w with cache := c.setFile key { fe with pages := fe.pages.insert pg p.setStale } }
          else if p.phys ≠ 0 then { w with cache := c.setFile key fe }.zero p.phys off pageSize
          else { w with cache := c.setFile key fe }
    { w with frames := w.frames.unrefAll gone }

/-- The batches of `reclaim_pages`; `fuel` is the scan budget left. -/
def reclaimLoop (want : Nat) : Nat → World × Nat → Nat → World × Nat
  | 0, r, _ => r
  | fuel + 1, (w, freed), budget =>
    if freed < want ∧ budget > 0 ∧ !w.cache.files.isEmpty then
      let b := w.cache.reclaimBatch w.frames (min (want - freed) batch)
      let w := { w with cache := b.1, frames := w.frames.freeAll b.2.1 }
      let freed := freed + b.2.1.length
      if b.2.2 = 0 then (w, freed)
      else reclaimLoop want fuel (w, freed) (budget - max b.2.2 1)
    else (w, freed)

/-- `reclaim_pages`: clock eviction of up to `want` pages. -/
def reclaimPages (w : World) (want : Nat) : World × Nat :=
  let budget := 2 * (w.cache.cached + w.cache.filling) + batch
  reclaimLoop want budget (w, 0) budget

/-- One page of `emergency_reclaim`. `busy`: `try_get` found the table locked. -/
def emergencyVisit (busy : Nat → Bool) (r : World × Nat) (spareRef : Bool) (k pg : Nat) :
    World × Nat :=
  let w := r.1
  match w.cache.files.get? k with
  | none => r
  | some fe =>
    match fe.pages.get? pg with
    | none => r
    | some p =>
      if !p.published || p.flags.dirty then r
      else if spareRef && p.flags.ref then r
      else if busy p.phys || w.frames.get p.phys != 1 then r
      else ({ w with
        cache := { w.cache.setFile k { fe with
            pages := fe.pages.insert pg p.emptied } with
          mapped := countMapped w.cache.mapped p.flags.mapped false
          cached := wsub w.cache.cached 1 }
        frames := w.frames.free p.phys 0 }, r.2 + 1)

/-- The sweeps of `emergency_reclaim`: stop at `want` pages or `1 << 18`
entries. -/
def emergencyLoop (busy : Nat → Bool) (want : Nat) (r : World × Nat) (scanned : Nat) :
    List (Bool × (Nat × Nat)) → World × Nat
  | [] => r
  | (spareRef, (k, pg)) :: order =>
    if r.2 ≥ want ∨ scanned ≥ 1 <<< 18 then r
    else emergencyLoop busy want (emergencyVisit busy r spareRef k pg) (scanned + 1) order

/-- `emergency_reclaim`, with the cache lock free. -/
def emergencyReclaim (w : World) (busy : Nat → Bool) (want : Nat) : World × Nat :=
  if w.cache.cached = 0 then (w, 0)
  else
    let skip := w.cache.emergencyHand % max w.cache.files.entries.length 1
    let w := { w with cache := { w.cache with
      emergencyHand := (w.cache.emergencyHand + 1) % 2 ^ 32 } }
    let r := emergencyLoop busy want (w, 0) 0 (w.cache.emergencyOrder skip)
    ({ r.1 with cache := { r.1.cache with holes := wadd r.1.cache.holes r.2 } }, r.2)

/-- `purge`: drop the entries the emergency path emptied. -/
def purge (w : World) : World :=
  if w.cache.holes = 0 then w
  else { w with cache := { w.cache with
    holes := 0
    files := w.cache.files.mapVals fun _ fe =>
      { fe with pages := fe.pages.retain fun _ p => !(p.state == .uptodate && p.phys == 0) } } }

/-- The bytes of a write that fall into page `pg`. -/
def copyIn (w : World) (pos : Nat) (data : List Nat) (p : Pinned) : World :=
  { w with mem := Function.update w.mem p.phys fun off =>
      let at' := p.pgoff * pageSize + off
      if pos ≤ at' ∧ at' < pos + data.length ∧ off < pageSize then data.getD (at' - pos) 0
      else w.mem p.phys off }

/-- `pc_write_through` of the filesystem server: the end of a write request. -/
def writeThrough (w : World) (key pos : Nat) (data : List Nat) (oldSize newSize : Nat) : World :=
  if data.length = 0 then w
  else
    let w := if pos > oldSize then w.extend key oldSize pos else w
    let (pins, w) := w.wtPin key pos data.length
    let w := pins.foldl (fun w p => w.copyIn pos data p) w
    let w := w.wtDone pins
    if newSize ≠ oldSize then { w with cache := w.cache.noteSize key newSize } else w

end World

end Leandros.Mm.PageCache
