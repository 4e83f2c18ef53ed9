import Leandros.Lib.Usize

/-!
# Leandros.Mm.Buddy.Model

The buddy allocator of `mm/src/buddy.rs`, as the code computes it.

Physical memory is one function from 8-byte word addresses to words, and
everything the allocator keeps in memory lives there: the `next`, `prev` and
`order` words of a free block at offsets 0, 8 and 16 of its first page, and the
free-head bitmap in its own carved-out pages. The HHDM offset is left out: a
virtual address the allocator computes is named by the physical one behind it.

A function that may stop the kernel (`report_bad_link`) or follow a list that
never ends returns `Option`, with `none` for either. The per-call-site tags are
left out: their table is allocated memory, which anyone may write at any time
(`Call.store` in `Buddy.Run`).
-/

namespace Leandros.Mm

/-- `PAGE_SIZE`. -/
def pageSize : Nat := 4096

/-- `MAX_ORDER`: blocks have `2 ^ order` pages with `order < maxOrder`. -/
def maxOrder : Nat := 19

/-- `LOW_RESERVED_END`: the first MiB is never handed out. -/
def lowReservedEnd : Nat := 1 <<< 20

/-- `MAX_RESERVED`. -/
def maxReserved : Nat := 8

/-- `boot::MemoryType`. -/
inductive MemoryType
  | available
  | reserved
  | acpiReclaimable
  | acpiNvs
  | badMemory
  deriving Repr, DecidableEq

/-- `boot::MemoryRegion`, an entry of the boot memory map. It is a range of
physical addresses, far below the point where `u64` sums would wrap. -/
structure MemoryRegion where
  base : Nat
  length : Nat
  kind : MemoryType
  fits : base + length ≤ 2 ^ 63

/-- A physical range passed to `reserve_range`. -/
structure PhysRange where
  start : Nat
  stop : Nat
  fits : stop ≤ 2 ^ 63

/-- Why `free` refused a block: the check that `report_bad_free` names. -/
inductive BadFree
  | order
  | null
  | misaligned
  | beyondRam
  | reserved
  | doubleFree
  deriving Repr, DecidableEq

/-- The allocator's statics and the memory it works in. -/
structure Buddy where
  /-- Physical memory, by 8-byte word address. -/
  mem : Nat → Nat
  /-- `FREE_LISTS[order].head`. -/
  freeLists : Nat → Option Nat
  totalPages : Nat
  freePages : Nat
  physEnd : Nat
  /-- `FREE_HEAD_PTR`: where the free-head bitmap starts. -/
  freeHeadPtr : Nat
  coverEnd : Nat
  bitmapPhys : Nat
  bitmapPhysEnd : Nat
  /-- The `RESERVED` slots; a slot with equal ends is empty. -/
  reserved : List (Nat × Nat)
  badFrees : Nat
  /-- The refusals printed by `report_bad_free`, latest first. -/
  reports : List (Nat × Nat × BadFree)

namespace Buddy

/-! ### Links, nodes and the free-head bitmap -/

/-- `link_ok`: null, or a page-aligned address inside managed RAM. -/
def linkOk (s : Buddy) (val : Nat) : Bool :=
  val == 0 || (val &&& (pageSize - 1) == 0 && decide (val < s.physEnd))

/-- `check_links`: anything else halts the kernel. -/
def checkLinks (s : Buddy) (next prev : Nat) : Option Unit :=
  if s.linkOk next && s.linkOk prev then some () else none

def store (s : Buddy) (addr v : Nat) : Buddy := { s with mem := Function.update s.mem addr v }

def setHead (s : Buddy) (order : Nat) (h : Option Nat) : Buddy :=
  { s with freeLists := Function.update s.freeLists order h }

def nodeNext (s : Buddy) (addr : Nat) : Nat := s.mem addr
def nodeSetNext (s : Buddy) (addr v : Nat) : Buddy := s.store addr v
def nodePrev (s : Buddy) (addr : Nat) : Nat := s.mem (addr + 8)
def nodeSetPrev (s : Buddy) (addr v : Nat) : Buddy := s.store (addr + 8) v
def nodeOrder (s : Buddy) (addr : Nat) : Nat := s.mem (addr + 16)
def nodeSetOrder (s : Buddy) (addr v : Nat) : Buddy := s.store (addr + 16) v

/-- `covered`: the bitmap has a bit for this address. -/
def covered (s : Buddy) (addr : Nat) : Bool := decide (addr < s.coverEnd)

/-- The bitmap word that holds the bit of `addr`. -/
def headWord (s : Buddy) (addr : Nat) : Nat := s.freeHeadPtr + 8 * (addr / pageSize / 64)

def headBitSet (s : Buddy) (addr : Nat) (v : Bool) : Buddy :=
  if s.covered addr then
    let w := s.mem (s.headWord addr)
    let bit := 1 <<< (addr / pageSize % 64)
    s.store (s.headWord addr) (if v then w ||| bit else w &&& ((2 ^ 64 - 1) ^^^ bit))
  else s

def headBit (s : Buddy) (addr : Nat) : Bool :=
  (s.mem (s.headWord addr)).testBit (addr / pageSize % 64)

/-! ### The free lists -/

/-- Push `addr` onto the head of `lists[order]`. -/
def pushFront (s : Buddy) (order addr : Nat) : Buddy :=
  let oldHead := s.freeLists order
  let s := s.nodeSetNext addr (oldHead.getD 0)
  let s := s.nodeSetPrev addr 0
  let s := s.nodeSetOrder addr order
  let s := match oldHead with
    | some h => s.nodeSetPrev h addr
    | none => s
  (s.headBitSet addr true).setHead order (some addr)

/-- Unlink `addr`, known to be on `lists[order]`, through its own links. -/
def unlink (s : Buddy) (order addr : Nat) : Option Buddy := do
  let next := s.nodeNext addr
  let prev := s.nodePrev addr
  s.checkLinks next prev
  let s := if prev ≠ 0 then s.nodeSetNext prev next
    else s.setHead order (if next = 0 then none else some next)
  let s := if next ≠ 0 then s.nodeSetPrev next prev else s
  return s.headBitSet addr false

/-- The list walk of `try_remove` and `alloc_below_untracked`: from `cur`, the
first node that satisfies `p`. `fuel` bounds the nodes visited. -/
def walk (s : Buddy) (p : Nat → Bool) : Nat → Option Nat → Option (Option Nat)
  | _, none => some none
  | 0, some _ => none
  | fuel + 1, some addr => do
      let next := s.nodeNext addr
      s.checkLinks next 0
      if p addr then return some addr
      else s.walk p fuel (if next = 0 then none else some next)

/-- No list is longer than RAM has pages. -/
def walkFuel (s : Buddy) : Nat := s.physEnd / pageSize

/-- If `target` heads a free block of exactly `order`, unlink it. -/
def tryRemove (s : Buddy) (order target : Nat) : Option (Bool × Buddy) :=
  if s.covered target then
    if !s.headBit target || s.nodeOrder target != order then some (false, s)
    else return (true, ← s.unlink order target)
  else do
    match ← s.walk (· == target) s.walkFuel (s.freeLists order) with
    | some addr => return (true, ← s.unlink order addr)
    | none => return (false, s)

/-! ### Reserved ranges -/

/-- `reserve_range`: record a page-rounded range in the first empty slot. -/
def reserveSlot (r : Nat × Nat) : List (Nat × Nat) → List (Nat × Nat)
  | [] => []
  | slot :: slots => if slot.1 = slot.2 then r :: slots else slot :: reserveSlot r slots

def reserveRange (s : Buddy) (r : PhysRange) : Buddy :=
  if r.start ≥ r.stop then s
  else
    let slot := (alignDown r.start pageSize, alignUp r.stop pageSize)
    { s with reserved := reserveSlot slot s.reserved }

/-- Does `[addr, addr + size)` touch the recorded range `r`? -/
def overlapsRange (addr size : Nat) (r : Nat × Nat) : Bool :=
  r.1 != r.2 && decide (addr < r.2) && decide (r.1 < addr + size)

/-- `overlaps_reserved`: the bitmap's own pages count as reserved. -/
def overlapsReserved (s : Buddy) (addr size : Nat) : Bool :=
  overlapsRange addr size (s.bitmapPhys, s.bitmapPhysEnd) ||
    s.reserved.any (overlapsRange addr size)

/-! ### Freeing -/

/-- The checks of `free`, in its order. -/
def freeCheck (s : Buddy) (addr order : Nat) : Option BadFree :=
  let size := pageSize <<< order
  if order ≥ maxOrder then some .order
  else if addr = 0 then some .null
  else if addr &&& (size - 1) ≠ 0 then some .misaligned
  -- A `checked_add` that overflows is past every `PHYS_END` too.
  else if s.physEnd ≠ 0 ∧ addr + size > s.physEnd then some .beyondRam
  else if s.overlapsReserved addr size then some .reserved
  else if s.covered addr && s.headBit addr then some .doubleFree
  else none

def reportBadFree (s : Buddy) (addr order : Nat) (why : BadFree) : Buddy :=
  { s with badFrees := wadd s.badFrees 1, reports := (addr, order, why) :: s.reports }

/-- The merge loop of `free`; `n` is `maxOrder - 1 - order`, the merges left. -/
def coalesce (s : Buddy) (addr order : Nat) : Nat → Option Buddy
  | 0 => some (s.pushFront order addr)
  | n + 1 => do
      let buddy := addr ^^^ (pageSize <<< order)
      if s.overlapsReserved buddy (pageSize <<< order) then return s.pushFront order addr
      match ← s.tryRemove order buddy with
      | (false, s) => return s.pushFront order addr
      | (true, s) => s.coalesce (min addr buddy) (order + 1) n

/-- `free`: give the `2 ^ order` pages at `addr` back. -/
def free (s : Buddy) (addr order : Nat) : Option Buddy :=
  match s.freeCheck addr order with
  | some why => some (s.reportBadFree addr order why)
  | none =>
    { s with freePages := wadd s.freePages (1 <<< order) }.coalesce addr order
      (maxOrder - 1 - order)

/-! ### Allocating -/

/-- Keep the lowest `2 ^ order` pages of the block `addr` of order `o`: push
each upper half back on its own list. -/
def splitDown (s : Buddy) (order o addr : Nat) : Buddy :=
  (List.range' order (o - order)).reverse.foldl
    (fun s split => s.pushFront split (addr + (pageSize <<< split))) s

/-- Take the head `addr` off `lists[o]`, as `alloc_untracked` does inline. -/
def popHead (s : Buddy) (o addr : Nat) : Option Buddy := do
  let nextVal := s.nodeNext addr
  s.checkLinks nextVal 0
  let s := s.setHead o none
  let s := if nextVal ≠ 0 then (s.nodeSetPrev nextVal 0).setHead o (some nextVal)
    else s.setHead o none
  return s.headBitSet addr false

/-- Charge an allocation of `2 ^ order` pages. -/
def chargeFree (s : Buddy) (order : Nat) : Buddy :=
  { s with freePages := wsub s.freePages (1 <<< order) }

/-- The order loop of `alloc_untracked`. -/
def allocFrom (s : Buddy) (order : Nat) : List Nat → Option (Option Nat × Buddy)
  | [] => some (none, s)
  | o :: os =>
    match s.freeLists o with
    | none => s.allocFrom order os
    | some addr => return (some addr, ((← s.popHead o addr).splitDown order o addr).chargeFree order)

def allocUntracked (s : Buddy) (order : Nat) : Option (Option Nat × Buddy) :=
  if order ≥ maxOrder then some (none, s)
  else s.allocFrom order (List.range' order (maxOrder - order))

/-- The order loop of `alloc_below_untracked`: on each list the first block
whose lowest `2 ^ order` pages end at or below `limit`. -/
def allocBelowFrom (s : Buddy) (order limit : Nat) : List Nat → Option (Option Nat × Buddy)
  | [] => some (none, s)
  | o :: os => do
      match ← s.walk (fun addr => decide (addr + (pageSize <<< order) ≤ limit)) s.walkFuel
          (s.freeLists o) with
      | none => s.allocBelowFrom order limit os
      | some addr =>
        return (some addr, ((← s.unlink o addr).splitDown order o addr).chargeFree order)

def allocBelowUntracked (s : Buddy) (order limit : Nat) : Option (Option Nat × Buddy) :=
  if order ≥ maxOrder then some (none, s)
  else s.allocBelowFrom order limit (List.range' order (maxOrder - order))

/-! ### Boot -/

/-- The allocator before `init_from_map`: nothing is known about memory. -/
def fresh (mem : Nat → Nat) : Buddy where
  mem := mem
  freeLists := fun _ => none
  totalPages := 0
  freePages := 0
  physEnd := 0
  freeHeadPtr := 0
  coverEnd := 0
  bitmapPhys := 0
  bitmapPhysEnd := 0
  reserved := List.replicate maxReserved (0, 0)
  badFrees := 0
  reports := []

/-- The end of an Available region, rounded down to a page. -/
def regionEnd (r : MemoryRegion) : Nat := alignDown (r.base + r.length) pageSize

/-- The first page of an Available region above the low reserved area. -/
def regionStart (r : MemoryRegion) : Nat := max (alignUp r.base pageSize) lowReservedEnd

/-- The highest end of an Available region. -/
def bitmapTop (regions : List MemoryRegion) : Nat :=
  regions.foldl (fun top r =>
    if r.kind ≠ .available then top else if regionEnd r > top then regionEnd r else top) 0

/-- Bytes of bitmap for the pages below `top`: a bit each, in whole words. -/
def bitmapBytes (top : Nat) : Nat := alignUp ((top / pageSize + 63) / 64 * 8) pageSize

/-- One pass over the reserved slots: step `cand` past each one it meets. -/
def bumpPass (bytes : Nat) (slots : List (Nat × Nat)) (cand : Nat) : Nat :=
  slots.foldl (fun cand r => if overlapsRange cand bytes r then r.2 else cand) cand

/-- Repeat `bumpPass` until a pass moves nothing. -/
def bumpLoop (bytes : Nat) (slots : List (Nat × Nat)) : Nat → Nat → Option Nat
  | 0, _ => none
  | fuel + 1, cand =>
    let cand' := bumpPass bytes slots cand
    if cand' = cand then some cand else bumpLoop bytes slots fuel cand'

/-- The search of `setup_free_head_bitmap` for a region that fits the bitmap. -/
def placeBitmap (s : Buddy) (top bytes : Nat) : List MemoryRegion → Option Buddy
  | [] => some s
  | r :: rs =>
    if r.kind ≠ .available then s.placeBitmap top bytes rs
    else do
      let cand ← bumpLoop bytes s.reserved (s.reserved.length + 1) (regionStart r)
      if cand + bytes > regionEnd r then s.placeBitmap top bytes rs
      else return { s with
        mem := fun a => if cand ≤ a ∧ a < cand + bytes then 0 else s.mem a
        bitmapPhys := cand
        bitmapPhysEnd := cand + bytes
        freeHeadPtr := cand
        coverEnd := top }

def setupFreeHeadBitmap (s : Buddy) (regions : List MemoryRegion) : Option Buddy :=
  let top := bitmapTop regions
  let bytes := bitmapBytes top
  if bytes = 0 then some s else s.placeBitmap top bytes regions

/-- `usize::trailing_zeros` of a nonzero value. -/
def trailingZeros (n : Nat) : Nat :=
  if n = 0 then 64 else if n % 2 = 1 then 0 else trailingZeros (n / 2) + 1

/-- Shrink the block at `addr` until it spans no reserved range. -/
def shrinkOrder (s : Buddy) (addr : Nat) : Nat → Nat
  | 0 => 0
  | order + 1 =>
    if s.overlapsReserved addr (pageSize <<< (order + 1)) then s.shrinkOrder addr order
    else order + 1

/-- The order of the block `init_from_map` releases at `addr`. -/
def initOrder (s : Buddy) (addr stop : Nat) : Nat :=
  let maxO := min (maxOrder - 1) (Nat.log2 ((stop - addr) / pageSize))
  let alignO := trailingZeros (addr / pageSize)
  s.shrinkOrder addr (min maxO (min alignO (maxOrder - 1)))

/-- The walk of one region: release the largest aligned block each time. -/
def initWalk (s : Buddy) (addr stop : Nat) : Option Buddy :=
  if addr < stop then
    if s.overlapsReserved addr pageSize then s.initWalk (addr + pageSize) stop
    else do
      let order := s.initOrder addr stop
      (← s.free addr order).initWalk (addr + (pageSize <<< order)) stop
  else some s
termination_by stop - addr
decreasing_by
  · have : 0 < pageSize := by decide
    omega
  have : 0 < pageSize <<< s.initOrder addr stop := by
    rw [Nat.shiftLeft_eq]
    exact Nat.mul_pos (by decide) (by positivity)
  omega

/-- One entry of the memory map. -/
def initRegion (s : Buddy) (r : MemoryRegion) : Option Buddy :=
  if r.kind ≠ .available then some s
  else if regionStart r ≥ regionEnd r then some s
  else
    { s with physEnd := max s.physEnd (regionEnd r) }.initWalk (regionStart r) (regionEnd r)

def initFromMap (s : Buddy) (regions : List MemoryRegion) : Option Buddy := do
  let s ← s.setupFreeHeadBitmap regions
  let s ← regions.foldlM initRegion s
  return { s with totalPages := s.freePages }

end Buddy

end Leandros.Mm
