import Leandros.Mm.Vmm.Region

/-!
# Leandros.Mm.Vmm.Space

**Address spaces**: the VMA table and the operations on it (`mm/src/vmm.rs`), and
`fork`'s clone (`mm/src/cow.rs`). Each function runs with the address space
locked; `clone_as` and the promotion of a fault also hold `COW_LOCK`.

The table is a vector of slots. A loop over all slots that treats each VMA
alone is a `map` over the slots beside a fold over the memory.

An unmap, a protection change and a discard of a range first split the VMAs at both ends of it
(`splitTwo`) and then treat those that lie inside as a whole. A device mapping is not
split. Addresses are `usize`s, and the ends of ranges are computed as the source does, with
`checked_add` where it has it and with wrapping arithmetic where it does not.
-/

namespace Leandros.Mm.Vmm

open List (range)

/-- `AddressSpace`. -/
structure AddressSpace where
  root : Nat
  regions : List (Option VmaRegion)
  heapStart : Nat
  heapEnd : Nat

namespace AddressSpace

def new (root : Nat) : AddressSpace := ⟨root, List.replicate 128 none, 0, 0⟩

/-! ### The slots -/

/-- The VMA in slot `i`. -/
def vma (as : AddressSpace) (i : Nat) : Option VmaRegion := as.regions[i]?.join

/-- The recorded VMAs. -/
def vmas (as : AddressSpace) : List VmaRegion := as.regions.filterMap id

/-- The first slot whose VMA passes the test. -/
def position (as : AddressSpace) (sel : VmaRegion → Bool) : Option Nat :=
  as.regions.findIdx? fun slot => slot.any sel

/-- The first VMA that passes the test, with its slot. -/
def locate (as : AddressSpace) (sel : VmaRegion → Bool) : Option (Nat × VmaRegion) :=
  (as.position sel).bind fun i => (as.vma i).map fun r => (i, r)

/-- `regions[i] = Some(r)`. -/
def put (as : AddressSpace) (i : Nat) (r : VmaRegion) : AddressSpace :=
  { as with regions := as.regions.set i (some r) }

/-- Find a free slot, or push one. -/
def reserve (as : AddressSpace) : Nat × AddressSpace :=
  match as.regions.findIdx? Option.isNone with
  | some i => (i, as)
  | none => (as.regions.length, { as with regions := as.regions ++ [none] })

/-- Change the VMA of every slot, or empty it. -/
def mapSlots (as : AddressSpace) (f : VmaRegion → Option VmaRegion) : AddressSpace :=
  { as with regions := as.regions.map fun slot => slot.bind f }

/-- Does `[virt, stop)` overlap a VMA, as the mapping calls test it? -/
def overlaps (as : AddressSpace) (virt stop : Nat) : Bool :=
  as.vmas.any fun r => decide (virt < r.stop) && decide (stop > r.start)

/-! ### New mappings -/

/-- `(size + PAGE_SIZE - 1) / PAGE_SIZE`. -/
def pagesFor (size : Nat) : Nat := wadd size (pageSize - 1) / pageSize

/-- What every mapping call does first: a slot, the rounded range, and no overlap.
The slot stays reserved when the call fails after it. -/
def claim (as : AddressSpace) (virt pages : Nat) : AddressSpace × Option (Nat × Nat × Nat) :=
  let slot := as.reserve
  let virt := alignDown virt pageSize
  match checkedAdd virt (wmul pages pageSize) with
  | none => (slot.2, none)
  | some stop =>
    if slot.2.overlaps virt stop then (slot.2, none) else (slot.2, some (slot.1, virt, stop))

/-- The entries of `n` pages from `virt`. -/
def runOf (virt n : Nat) (e : Nat → Option Pte) : List (Nat × Option Pte) :=
  (range n).map fun i => (virt + i * pageSize, e i)

/-- Install `n` entries from `virt`; a failure unmaps those before it. -/
def installRun (env : Env) (root : Nat) (vm : Vm) (virt n : Nat) (e : Nat → Option Pte) :
    Bool × Vm :=
  match (range n).find? fun i => !env.install root (virt + i * pageSize) with
  | none => (true, vm.edit root (runOf virt n e))
  | some k => (false, (vm.edit root (runOf virt k e)).edit root (runOf virt k fun _ => none))

/-- An anonymous VMA with nothing mapped. -/
def blankRegion (virt stop : Nat) (flags : PageFlags) : VmaRegion where
  start := virt
  stop := stop
  phys := 0
  flags := flags
  lazy := true
  lazyPages := .new
  lazyCount := 0
  prot := ⟨true, true, false⟩
  mapFlags := ⟨false, false⟩
  fileCap := .anon
  fileOff := 0
  fileLen := 0
  cow := false
  written := fun _ => false

/-- The memory with `pages` frames from `phys` zeroed. -/
def zeroed (vm : Vm) (phys pages : Nat) : Vm :=
  (range pages).foldl (fun vm i => vm.zeroFrame (phys + i * pageSize)) vm

/-- The entries of a block. -/
def blockPtes (phys : Nat) (flags : PageFlags) (i : Nat) : Option Pte :=
  some ⟨wadd phys (i * pageSize), flags⟩

/-- The VMA that `map` records. -/
def eagerRegion (start stop phys : Nat) (flags : PageFlags) : VmaRegion :=
  { blankRegion start stop flags with phys := phys, lazy := false }

/-- `map`. -/
def map (env : Env) (as : AddressSpace) (vm : Vm) (virt size : Nat) (flags : PageFlags) :
    Bool × AddressSpace × Vm :=
  if size = 0 then (false, as, vm)
  else
    let pages := pagesFor size
    match as.claim virt pages with
    | (as, none) => (false, as, vm)
    | (as, some (slot, virt, stop)) =>
      match vm.alloc (env.frame 0) (pagesToOrder pages) with
      | none => (false, as, vm)
      | some (phys, vm) =>
        match installRun env as.root (zeroed vm phys pages) virt pages (blockPtes phys flags) with
        | (false, vm) => (false, as, vm.free phys (pagesToOrder pages))
        | (true, vm) => (true, as.put slot (eagerRegion virt stop phys flags), vm)

/-- The VMA that `map_device` records. -/
def deviceRegion (start stop phys : Nat) (flags : PageFlags) : VmaRegion :=
  { blankRegion start stop flags with
    phys := phys, lazy := false, mapFlags := ⟨true, false⟩, fileCap := .device }

/-- `map_device`. -/
def mapDevice (env : Env) (as : AddressSpace) (vm : Vm) (virt phys size : Nat) (flags : PageFlags) :
    Bool × AddressSpace × Vm :=
  if size = 0 then (false, as, vm)
  else
    let pages := pagesFor size
    let phys := alignDown phys pageSize
    match as.claim virt pages with
    | (as, none) => (false, as, vm)
    | (as, some (slot, virt, stop)) =>
      match installRun env as.root vm virt pages (blockPtes phys flags) with
      | (false, vm) => (false, as, vm)
      | (true, vm) => (true, as.put slot (deviceRegion virt stop phys flags), vm)

/-- `map_lazy`. -/
def mapLazy (as : AddressSpace) (virt size : Nat) (flags : PageFlags) (isShared : Bool) :
    Bool × AddressSpace :=
  if size = 0 then (false, as)
  else
    match as.claim virt (pagesFor size) with
    | (as, none) => (false, as)
    | (as, some (slot, virt, stop)) =>
      (true, as.put slot { blankRegion virt stop flags with mapFlags := ⟨isShared, false⟩ })

/-- The protection the page flags spell. -/
def protOf (flags : PageFlags) : Prot := ⟨true, flags.writable, flags.execute⟩

/-- The VMA that `map_shared_frames` records. -/
def framesRegion (start stop : Nat) (frames : List Nat) (flags : PageFlags) : VmaRegion :=
  { blankRegion start stop flags with
    lazyPages := .ofList frames, lazyCount := frames.length, prot := protOf flags
    mapFlags := ⟨true, false⟩ }

/-- The frames of a refused `map_shared_frames` go back. -/
def releaseFrames (vm : Vm) (frames : List Nat) : Vm :=
  vm.setFrames (vm.world.frames.unrefAll (frames.filter (· != 0)))

/-- `map_shared_frames`: the caller's reference on each frame becomes the VMA's. -/
def mapSharedFrames (env : Env) (as : AddressSpace) (vm : Vm) (virt : Nat) (frames : List Nat)
    (flags : PageFlags) : Bool × AddressSpace × Vm :=
  if frames.isEmpty then (false, as, vm)
  else
    match as.claim virt frames.length with
    | (as, none) => (false, as, releaseFrames vm frames)
    | (as, some (slot, virt, stop)) =>
      match installRun env as.root vm virt frames.length fun i => some ⟨frames.getD i 0, flags⟩ with
      | (false, vm) => (false, as, releaseFrames vm frames)
      | (true, vm) => (true, as.put slot (framesRegion virt stop frames flags), vm)

/-- `map_lazy_file_with`. -/
def mapLazyFileWith (as : AddressSpace) (virt size : Nat) (flags : PageFlags) (fileCap : FileCap)
    (fileOff fileLen : Nat) (mapFlags : MapFlags) : Bool × AddressSpace :=
  if size = 0 then (false, as)
  else if !fileCap.isFileBacked then (false, as)
  else
    match as.claim virt (pagesFor size) with
    | (as, none) => (false, as)
    | (as, some (slot, virt, stop)) =>
      (true, as.put slot { blankRegion virt stop flags with
        prot := protOf flags
        mapFlags := mapFlags
        fileCap := fileCap
        fileOff := fileOff
        fileLen := fileLen })

/-- `map_lazy_file`: an ELF segment. -/
def mapLazyFile (as : AddressSpace) (virt size : Nat) (flags : PageFlags) (fileCap : FileCap)
    (fileOff fileLen : Nat) : Bool × AddressSpace :=
  as.mapLazyFileWith virt size flags fileCap fileOff fileLen ⟨false, false⟩

/-- `map_private_file`. -/
def mapPrivateFile (as : AddressSpace) (virt size : Nat) (flags : PageFlags) (fileCap : FileCap)
    (fileOff : Nat) : Bool × AddressSpace :=
  as.mapLazyFileWith virt size flags fileCap fileOff (alignUp size pageSize) ⟨false, true⟩

/-- `map_shared_file`. -/
def mapSharedFile (as : AddressSpace) (virt size : Nat) (flags : PageFlags) (fileCap : FileCap)
    (fileOff : Nat) : Bool × AddressSpace :=
  as.mapLazyFileWith virt size flags fileCap fileOff (alignUp size pageSize) ⟨true, true⟩

/-! ### Faults -/

/-- `plan_user_page_fault`. -/
def planUserPageFault (env : Env) (as : AddressSpace) (vm : Vm) (faultVa : Nat) (isWrite : Bool) :
    FaultPlan × AddressSpace × Vm :=
  match as.locate (·.contains faultVa) with
  | none => (.done .segv, as, vm)
  | some (i, r) =>
    let out := r.planFault env as.root vm faultVa isWrite
    (out.1, as.put i out.2.1, out.2.2)

/-- `install_file_fault`; `none`: a panic. -/
def installFileFault (env : Env) (as : AddressSpace) (vm : Vm) (p : FileFault) (data : List Nat)
    (got : Int) : Option (Fault × AddressSpace × Vm) :=
  match as.locate (·.contains p.pageVa) with
  | none => some (.handled, as, vm)
  | some (i, r) =>
    (r.installFault env as.root vm p data got).map fun out => (out.1, as.put i out.2.1, out.2.2)

/-! ### Splitting and unmapping -/

/-- The pages of an eager VMA, one by one. -/
def eagerPages (r : VmaRegion) : PageVec := .ofList ((range r.pages).map r.frameAt)

/-- The left part of a VMA split at page `idx`. -/
def splitLeft (r : VmaRegion) (boundary idx : Nat) : VmaRegion :=
  let left := (r.lazyPages.splitOff idx).1
  { r with
    stop := boundary
    lazyPages := left
    lazyCount := left.countPresent
    fileLen := if r.fileCap.isFileBacked && decide (r.fileLen > idx * pageSize) then idx * pageSize
      else r.fileLen
    written := fun i => decide (i < idx) && r.written i }

/-- The right part. -/
def splitRight (r : VmaRegion) (boundary idx : Nat) : VmaRegion :=
  let tail := (r.lazyPages.splitOff idx).2
  { r with
    start := boundary
    phys := 0
    lazy := true
    lazyPages := tail
    lazyCount := tail.countPresent
    fileOff := wadd r.fileOff (idx * pageSize)
    fileLen := r.fileLen - idx * pageSize
    written := fun i => r.written (idx + i) }

/-- An eager VMA in per-page form. -/
def toLazy (r : VmaRegion) : VmaRegion :=
  if r.lazy then r
  else { r with lazy := true, phys := 0, lazyPages := eagerPages r, lazyCount := r.pages }

/-- `split_at`. -/
def splitAt (as : AddressSpace) (vm : Vm) (boundary : Nat) : Bool × AddressSpace × Vm :=
  let boundary := alignDown boundary pageSize
  match as.locate fun r => decide (r.start < boundary) && decide (boundary < r.stop) with
  | none => (false, as, vm)
  | some (i, r) =>
    if r.fileCap = .device then (false, as, vm)
    else
      let vm := if r.lazy then vm else vm.setFrames (freeEagerTail vm.world.frames r.phys r.pages)
      let r := toLazy r
      let idx := wsub boundary r.start / pageSize
      let slot := (as.put i (splitLeft r boundary idx)).reserve
      (true, slot.2.put slot.1 (splitRight r boundary idx), vm)

/-- Is the VMA not empty and inside `[virt, stop)`? -/
def inside (virt stop : Nat) (r : VmaRegion) : Bool :=
  decide (r.start ≥ virt) && decide (r.stop ≤ stop) && decide (r.start < r.stop)

/-- The entries a VMA has when it goes, or loses all access. -/
def clearPtes (r : VmaRegion) : List (Nat × Option Pte) :=
  if r.lazy then r.lazyPages.present.map fun e => (r.pageVa e.1, none)
  else runOf r.start r.pages fun _ => none

/-- The page frames a VMA gives back. -/
def releasedFrames (r : VmaRegion) : List Nat := if r.lazy then r.lazyPages.frames else []

/-- The block an eager VMA gives back. -/
def releasedBlock (r : VmaRegion) : Option (Nat × Nat) :=
  if !r.lazy && decide (r.fileCap ≠ .device) && decide (r.phys ≠ 0) then
    some (r.phys, pagesToOrder r.pages)
  else none

def freeBlocks (fr : Frames) (l : List (Nat × Nat)) : Frames := l.foldl (fun fr b => fr.free b.1 b.2) fr

/-- The table and the memory after the splits at both ends of a range. -/
def splitTwo (as : AddressSpace) (vm : Vm) (virt stop : Nat) : AddressSpace × Vm :=
  let s := as.splitAt vm virt
  (s.2.1.splitAt s.2.2 stop).2

/-- `unmap_range` after the splits: what is inside goes, its entries first. -/
def removeInside (as : AddressSpace) (vm : Vm) (virt stop : Nat) : AddressSpace × Vm :=
  let gone := as.vmas.filter (inside virt stop)
  (as.mapSlots fun r => if inside virt stop r then none else some r,
    (vm.edit as.root (gone.flatMap clearPtes)).setFrames
      (freeBlocks (vm.world.frames.unrefAll (gone.flatMap releasedFrames))
        (gone.filterMap releasedBlock)))

/-- `unmap_range`. -/
def unmapRange (as : AddressSpace) (vm : Vm) (virt len : Nat) : AddressSpace × Vm :=
  if len = 0 then (as, vm)
  else
    let virt := alignDown virt pageSize
    match checkedAdd virt (alignUp len pageSize) with
    | none => (as, vm)
    | some stop =>
      let s := as.splitTwo vm virt stop
      s.1.removeInside s.2 virt stop

/-- The pages `first..last` of a VMA leave it. -/
def dropPages (r : VmaRegion) (l : List (Nat × Nat)) : VmaRegion :=
  l.foldl (fun r e => { r with lazyPages := r.lazyPages.set e.1 0, lazyCount := r.lazyCount - 1
                      }.setWritten e.1 false) r

/-- The present pages `first..last`, with their frames. -/
def presentIn (r : VmaRegion) (first last : Nat) : List (Nat × Nat) :=
  ((range r.lazyPages.len).filter fun i =>
    decide (first ≤ i) && decide (i < last) && (r.lazyPages.slot i != 0)).map
      fun i => (i, r.lazyPages.slot i)

/-- Does `discard_range` drop pages of the VMA? -/
def discards (virt stop : Nat) (r : VmaRegion) : Bool :=
  !(decide (r.stop ≤ virt) || decide (r.start ≥ stop)) && !r.mapFlags.shared &&
    decide (r.fileCap ≠ .device)

/-- The pages `discard_range` drops. -/
def discarded (virt stop : Nat) (r : VmaRegion) : List (Nat × Nat) :=
  if discards virt stop r && r.lazy then
    presentIn r ((max r.start virt - r.start) / pageSize) (wsub (min r.stop stop) r.start / pageSize)
  else []

/-- The bytes of an eager anonymous VMA that `discard_range` zeroes. -/
def zeroEager (virt stop : Nat) (vm : Vm) (r : VmaRegion) : Vm :=
  if discards virt stop r && !r.lazy && decide (r.phys ≠ 0) && !r.fileCap.isFileBacked then
    (range r.pages).foldl (fun vm i =>
      if virt ≤ r.pageVa i ∧ r.pageVa i < stop then vm.zeroFrame (r.frameAt i) else vm) vm
  else vm

/-- `discard_range`: false if part of the range is not mapped. -/
def discardRange (as : AddressSpace) (vm : Vm) (virt len : Nat) : Bool × AddressSpace × Vm :=
  let virt := alignDown virt pageSize
  let len := alignUp len pageSize
  match checkedAdd virt len with
  | none => (false, as, vm)
  | some stop =>
    if len = 0 then (true, as, vm)
    else
      let covered := ((as.vmas.filter fun r => !(decide (r.stop ≤ virt) || decide (r.start ≥ stop))).map
        fun r => wsub (min r.stop stop) (max r.start virt)).sum
      let dropped := as.vmas.flatMap fun r => (discarded virt stop r).map fun e => (r.pageVa e.1, e.2)
      let vm := as.vmas.foldl (zeroEager virt stop) vm
      (decide (covered % usizeLimit = len),
        as.mapSlots fun r => some (dropPages r (discarded virt stop r)),
        (vm.edit as.root (dropped.map fun e => (e.1, none))).setFrames
          (vm.world.frames.unrefAll (dropped.map (·.2))))

/-! ### Protection -/

/-- The page flags of a protection. -/
def flagsOf (prot : Prot) : PageFlags := { writable := prot.write, execute := prot.exec }

/-- The flags `mprotect` installs for present page `i`, held by frame `phys`. -/
def protectFlags (vm : Vm) (r : VmaRegion) (fl : PageFlags) (i phys : Nat) : PageFlags :=
  if r.cow && decide (vm.refs phys > 1) then fl.readOnly else r.installFlags i fl

/-- The entries `mprotect` writes for a VMA. -/
def protectPtes (env : Env) (root : Nat) (vm : Vm) (prot : Prot) (r : VmaRegion) :
    List (Nat × Option Pte) :=
  if !prot.access then
    if r.lazy || decide (r.phys ≠ 0) then clearPtes r else []
  else if r.lazy then
    (r.lazyPages.present.filter fun e => env.install root (r.pageVa e.1)).map fun e =>
      (r.pageVa e.1, some ⟨e.2, protectFlags vm r (flagsOf prot) e.1 e.2⟩)
  else if r.phys ≠ 0 then
    ((range r.pages).filter fun i => env.install root (r.pageVa i)).map fun i =>
      (r.pageVa i, some ⟨r.frameAt i, flagsOf prot⟩)
  else []

/-- The VMA after `mprotect`. -/
def protect (addr stop : Nat) (prot : Prot) (r : VmaRegion) : VmaRegion :=
  if inside addr stop r then { r with prot := prot, flags := flagsOf prot } else r

/-- `mprotect` after the splits. -/
def protectInside (env : Env) (as : AddressSpace) (vm : Vm) (addr stop : Nat) (prot : Prot) :
    AddressSpace × Vm :=
  (as.mapSlots fun r => some (protect addr stop prot r),
    vm.edit as.root ((as.vmas.filter (inside addr stop)).flatMap (protectPtes env as.root vm prot)))

/-- `mprotect`. -/
def mprotect (env : Env) (as : AddressSpace) (vm : Vm) (addr len : Nat) (prot : Prot) :
    Bool × AddressSpace × Vm :=
  if prot.write && prot.exec then (false, as, vm)
  else
    let addr := alignDown addr pageSize
    match checkedAdd addr (alignUp len pageSize) with
    | none => (false, as, vm)
    | some stop =>
      let s := as.splitTwo vm addr stop
      (s.1.vmas.any (inside addr stop), s.1.protectInside env s.2 addr stop prot)

/-! ### Moving an end -/

/-- The limit `grow_in_place` checks. -/
def growLimit : Nat := 0x800000000000

/-- `grow_in_place`: `addr`, or a negative errno. -/
def growInPlace (as : AddressSpace) (addr oldLen newLen : Nat) : Int × AddressSpace :=
  if addr % pageSize ≠ 0 then (-22, as)
  else
    match checkedAdd addr oldLen with
    | none => (-14, as)
    | some oldEnd =>
      match checkedAdd addr newLen with
      | none => (-12, as)
      | some newEnd =>
        match as.locate (·.contains addr) with
        | none => (-14, as)
        | some (i, r) =>
          if oldEnd > r.stop then (-14, as)
          else if oldEnd ≠ r.stop ∨ !(r.lazy && decide (r.fileCap = .anon) && !r.mapFlags.shared)
              ∨ newEnd > growLimit then (-12, as)
          else if as.vmas.any fun q => decide (q.start < newEnd) && decide (q.stop > r.stop) then
            (-12, as)
          else (addr, as.put i { r with stop := newEnd })

/-- The break `brk` reports. -/
def currentBreak (as : AddressSpace) : Nat := if as.heapEnd ≠ 0 then as.heapEnd else as.heapStart

/-- Is the room from `oldEnd` to `newEnd` taken by a VMA other than that of slot `idx`? -/
def takenBy (as : AddressSpace) (idx oldEnd newEnd : Nat) : Bool :=
  (range as.regions.length).any fun i => decide (i ≠ idx) &&
    (as.vma i).any fun r => decide (r.start < newEnd) && decide (r.stop > oldEnd)

/-- The VMA that `brk` takes for the heap. -/
def heapVma (as : AddressSpace) : Option (Nat × VmaRegion) :=
  as.locate fun r => decide (r.start = as.heapStart)

/-- The pages that leave the heap VMA when its end moves down. -/
def cutOff (r : VmaRegion) (newEnd : Nat) : List (Nat × Nat) :=
  presentIn r (wsub newEnd r.start / pageSize) (wadd (wsub r.stop r.start) (pageSize - 1) / pageSize)

/-- The heap VMA after its end moved down. -/
def shrunk (r : VmaRegion) (newEnd : Nat) : VmaRegion :=
  dropPages { r with stop := newEnd } (cutOff r newEnd)

/-- `brk`, once the break is rounded and the heap VMA found in slot `i`. -/
def moveBreak (as : AddressSpace) (vm : Vm) (i : Nat) (r : VmaRegion) (newEnd : Nat) :
    Nat × AddressSpace × Vm :=
  if newEnd = r.stop then (newEnd, as, vm)
  else if newEnd > r.stop then
    if as.takenBy i r.stop newEnd then (as.currentBreak, as, vm)
    else (newEnd, { as.put i { r with stop := newEnd } with heapEnd := newEnd }, vm)
  else
    let gone := cutOff r newEnd
    (newEnd, { as.put i (shrunk r newEnd) with heapEnd := newEnd },
      (vm.edit as.root (gone.map fun e => (r.pageVa e.1, none))).setFrames
        (vm.world.frames.unrefAll (gone.map (·.2))))

/-- `brk`. -/
def brk (as : AddressSpace) (vm : Vm) (newEnd : Nat) : Nat × AddressSpace × Vm :=
  if newEnd = 0 then (as.currentBreak, as, vm)
  else if as.heapStart = 0 then (as.currentBreak, as, vm)
  else
    let newEnd := alignUp newEnd pageSize
    match as.heapVma with
    | none =>
      if newEnd ≤ as.heapStart then (as.currentBreak, as, vm)
      else
        match as.mapLazy as.heapStart (newEnd - as.heapStart) { writable := true } false with
        | (true, as) => (newEnd, { as with heapEnd := newEnd }, vm)
        | (false, as) => (as.currentBreak, as, vm)
    | some (i, r) => as.moveBreak vm i r newEnd

/-! ### Fork -/

/-- Is this an eager device VMA, which fork aliases? -/
def aliased (r : VmaRegion) : Bool := !r.lazy && decide (r.fileCap = .device)

/-- The frames of a VMA's pages with their indices, as fork walks them. -/
def forkPages (r : VmaRegion) : List (Nat × Nat) :=
  if r.lazy then r.lazyPages.present else (range r.pages).map fun i => (i, r.frameAt i)

/-- A table filled with the pages fork walks. -/
def copyPages (l : List (Nat × Nat)) : PageVec :=
  l.foldl (fun v e => (if v.len ≤ e.1 then v.resize (e.1 + 1) else v).set e.1 e.2) .new

/-- The parent's VMA after a fork. -/
def forkParent (r : VmaRegion) : VmaRegion :=
  if aliased r then r
  else if r.lazy then { r with cow := r.cow || !r.mapFlags.shared }
  else { r with
    lazy := true, phys := 0, lazyPages := copyPages (forkPages r), lazyCount := r.pages
    cow := !r.mapFlags.shared }

/-- The child's VMA after a fork. -/
def forkChild (r : VmaRegion) : VmaRegion :=
  if aliased r then
    { r with lazyPages := .new, lazyCount := 0, cow := false, written := fun _ => false }
  else { r with
    phys := 0, lazy := true, lazyPages := copyPages (forkPages r)
    lazyCount := (forkPages r).length, cow := !r.mapFlags.shared }

/-- The flags fork installs in the child for page `i`. -/
def forkFlags (r : VmaRegion) (i : Nat) : PageFlags :=
  if !r.mapFlags.shared then r.flags.readOnly
  else if r.lazy && r.fileCap.isFileBacked then r.installFlags i r.flags
  else r.flags

/-- The entries fork writes for a VMA in the table at `root`. -/
def forkPtes (env : Env) (root : Nat) (r : VmaRegion) : List (Nat × Option Pte) :=
  ((forkPages r).filter fun e => env.install root (r.pageVa e.1)).map fun e =>
    (r.pageVa e.1, some ⟨e.2, forkFlags r e.1⟩)

/-- What fork does to memory for one VMA. -/
def forkMemory (env : Env) (root newRoot : Nat) (vm : Vm) (r : VmaRegion) : Vm :=
  if aliased r then
    vm.edit newRoot (((range r.pages).filter fun i => env.install newRoot (r.pageVa i)).map
      fun i => (r.pageVa i, some ⟨r.frameAt i, r.flags⟩))
  else
    let vm := vm.setFrames (vm.world.frames.incMany ((forkPages r).map (·.2)))
    let vm := if !r.prot.access then vm
      else
        let vm := vm.edit newRoot (forkPtes env newRoot r)
        if r.lazy && r.mapFlags.shared then vm else vm.edit root (forkPtes env root r)
    if r.lazy then vm else vm.setFrames (freeEagerTail vm.world.frames r.phys r.pages)

/-- `clone_as`: the parent, the child and the memory. -/
def cloneAs (env : Env) (as : AddressSpace) (vm : Vm) (newRoot : Nat) :
    AddressSpace × AddressSpace × Vm :=
  (as.mapSlots fun r => some (forkParent r),
    { as.mapSlots fun r => some (forkChild r) with root := newRoot },
    as.vmas.foldl (forkMemory env as.root newRoot) vm)

end AddressSpace

end Leandros.Mm.Vmm
