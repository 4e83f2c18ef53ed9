import Leandros.Mm.PageVec
import Leandros.Mm.PageCache.Model

/-!
# Leandros.Mm.Vmm.Region

Virtual memory areas, page tables and the machine's memory
(`mm/src/vmm.rs`, `mm/src/paging.rs`).

What is outside the model is in `Env`, an argument of every operation that asks
for it: which frame the buddy allocator hands out, whether `map_page` finds its
table nodes, the cache key of a file. An answer that the allocator cannot give
(a frame already handed out) counts as out of memory, so every `Env` is a
possible one.

Left out: the reference counts of backing files, TLB maintenance, accounting
(`VmHWM`, `RSS`) and the advisory reason of a failed mapping. `PRESENT` and `USER`
are set in every mapping the callers ask for and have no field.
-/

namespace Leandros.Mm.Vmm

open PageCache (World)

/-- `PageFlags`, less `PRESENT` and `USER`. -/
structure PageFlags where
  writable : Bool := false
  execute : Bool := false
  nocache : Bool := false
  mmio : Bool := false
  writecombine : Bool := false
  deriving Repr, DecidableEq

/-- `flags & !WRITABLE`. -/
def PageFlags.readOnly (fl : PageFlags) : PageFlags := { fl with writable := false }

/-- The `PROT_*` bits. -/
structure Prot where
  read : Bool
  write : Bool
  exec : Bool
  deriving Repr, DecidableEq

/-- `prot & PROT_ACCESS != 0`. -/
def Prot.access (p : Prot) : Bool := p.read || p.write || p.exec

/-- The `MAP_*` bits that are read: `MAP_SHARED` and `MAP_EOF_SIGBUS`. -/
structure MapFlags where
  shared : Bool
  eofSigbus : Bool := false
  deriving Repr, DecidableEq

/-- `file_cap`: 0, `usize::MAX`, or a backing file. -/
inductive FileCap
  | anon
  | device
  | file (cap : Nat)
  deriving Repr, DecidableEq

def FileCap.isFileBacked : FileCap → Bool
  | .file _ => true
  | _ => false

/-- `VmaRegion`. `stop` is `end`; `written` is the bitmap, where bits past its length
read 0. -/
structure VmaRegion where
  start : Nat
  stop : Nat
  /-- The block of an eager VMA. -/
  phys : Nat
  flags : PageFlags
  lazy : Bool
  lazyPages : PageVec
  lazyCount : Nat
  prot : Prot
  mapFlags : MapFlags
  fileCap : FileCap
  fileOff : Nat
  fileLen : Nat
  cow : Bool
  written : Nat → Bool

/-- `Fault`. -/
inductive Fault
  | handled
  | segv
  | bus
  deriving Repr, DecidableEq

/-- `FileFault`: a read to do with the address space unlocked. -/
structure FileFault where
  cap : Nat
  pageVa : Nat
  pos : Nat
  len : Nat
  window : Nat
  eofSigbus : Bool
  key : Nat
  write : Bool
  deriving Repr, DecidableEq

inductive FaultPlan
  | done (f : Fault)
  | read (p : FileFault)
  deriving Repr, DecidableEq

/-- `FAULT_AROUND_PAGES`. -/
def faultAroundPages : Nat := 16

/-! ### Page tables and memory -/

structure Pte where
  phys : Nat
  flags : PageFlags
  deriving Repr, DecidableEq

/-- The installed entries: by root, by page address. -/
abbrev PageTables := Nat → Nat → Option Pte

/-- Write one entry. -/
def PageTables.set (pt : PageTables) (root va : Nat) (e : Option Pte) : PageTables :=
  fun r v => if r = root ∧ v = va then e else pt r v

/-- Write a list of entries in turn. -/
def PageTables.edit (pt : PageTables) (root : Nat) (l : List (Nat × Option Pte)) : PageTables :=
  l.foldl (fun pt e => pt.set root e.1 e.2) pt

/-- Frames, page cache and page tables. -/
structure Vm where
  world : World
  pt : PageTables

/-- The answers of what is not modelled. -/
structure Env where
  /-- `buddy_alloc`, call by call. -/
  frame : Nat → Option Nat
  /-- Does `map_page` succeed: by root, by page address. -/
  install : Nat → Nat → Bool
  /-- `file_key`. -/
  fileKey : Nat → Nat

/-- `pages_to_order`: double `cap` until it holds the pages. -/
def orderLoop (pages : Nat) : Nat → Nat → Nat → Nat
  | 0, _, order => order
  | fuel + 1, cap, order => if cap < pages then orderLoop pages fuel (cap * 2) (order + 1) else order

def pagesToOrder (pages : Nat) : Nat := orderLoop pages 64 1 0

namespace Vm

/-- `pageref::get`. -/
def refs (vm : Vm) (phys : Nat) : Nat := vm.world.frames.get phys

def setFrames (vm : Vm) (fr : Frames) : Vm := { vm with world := { vm.world with frames := fr } }

def unref (vm : Vm) (phys : Nat) : Vm := vm.setFrames (vm.world.frames.unrefOrFree phys 0)

def dec (vm : Vm) (phys : Nat) : Vm := vm.setFrames (vm.world.frames.dec phys)

def free (vm : Vm) (phys order : Nat) : Vm := vm.setFrames (vm.world.frames.free phys order)

/-- A block the allocator may hand out. -/
def canAlloc (vm : Vm) (phys order : Nat) : Prop :=
  phys ≠ 0 ∧ phys % (2 ^ order * pageSize) = 0 ∧ phys + 2 ^ order * pageSize ≤ usizeLimit ∧
    Disjoint (Frames.block phys order) vm.world.frames.live

instance (vm : Vm) (phys order : Nat) : Decidable (vm.canAlloc phys order) :=
  inferInstanceAs (Decidable (_ ∧ _ ∧ _ ∧ _))

/-- `buddy_alloc`. -/
def alloc (vm : Vm) (answer : Option Nat) (order : Nat) : Option (Nat × Vm) :=
  match answer with
  | none => none
  | some phys =>
    if vm.canAlloc phys order then some (phys, vm.setFrames (vm.world.frames.alloc phys order))
    else none

/-- Set the bytes of a frame. -/
def fill (vm : Vm) (phys : Nat) (bytes : Nat → Nat) : Vm :=
  { vm with world := { vm.world with mem := Function.update vm.world.mem phys bytes } }

def zeroFrame (vm : Vm) (phys : Nat) : Vm := vm.fill phys fun _ => 0

def copyFrame (vm : Vm) (src dst : Nat) : Vm := vm.fill dst (vm.world.mem src)

def edit (vm : Vm) (root : Nat) (l : List (Nat × Option Pte)) : Vm :=
  { vm with pt := vm.pt.edit root l }

def mapPage (vm : Vm) (root va phys : Nat) (fl : PageFlags) : Vm :=
  { vm with pt := vm.pt.set root va (some ⟨phys, fl⟩) }

def unmapPage (vm : Vm) (root va : Nat) : Vm := { vm with pt := vm.pt.set root va none }

/-- `pagecache::mark_dirty`. -/
def markDirty (vm : Vm) (key pg phys : Nat) : Vm :=
  { vm with world := { vm.world with cache := (vm.world.cache.markDirty key pg phys).2 } }

/-- `pagecache::lookup`. -/
def lookup (vm : Vm) (key pg : Nat) (exec : Bool) : Option Nat × Vm :=
  let r := vm.world.lookup key pg exec
  (r.1, { vm with world := r.2 })

end Vm

/-- `trailing_zeros` of a word that is not 0. -/
def trailingZeros : Nat → Nat → Nat
  | 0, _ => 0
  | fuel + 1, i => if i % 2 = 1 then 0 else trailingZeros fuel (i / 2) + 1

/-- The largest sub-block of `free_eager_tail` at page `i`. -/
def tailOrder (i total : Nat) : Nat → Nat
  | 0 => 0
  | k + 1 => if i + 2 ^ (k + 1) > total then tailOrder i total k else k + 1

/-- The loop of `free_eager_tail`, from page `i`. -/
def freeTailLoop (phys total : Nat) : Nat → Nat → Frames → Frames
  | 0, _, fr => fr
  | fuel + 1, i, fr =>
    if i < total then
      let k := tailOrder i total (trailingZeros 64 i)
      freeTailLoop phys total fuel (i + 2 ^ k) (fr.free (phys + i * pageSize) k)
    else fr

/-- `free_eager_tail`: the pages of an `n`-page VMA's block that it does not map. -/
def freeEagerTail (fr : Frames) (phys n : Nat) : Frames :=
  if phys = 0 ∨ n = 0 then fr
  else freeTailLoop phys (2 ^ pagesToOrder n) (2 ^ pagesToOrder n - n) n fr

namespace VmaRegion

def pages (r : VmaRegion) : Nat := wsub r.stop r.start / pageSize

def contains (r : VmaRegion) (va : Nat) : Bool := decide (r.start ≤ va) && decide (va < r.stop)

/-- The address of page `i`. -/
def pageVa (r : VmaRegion) (i : Nat) : Nat := r.start + i * pageSize

/-- Page `i` of the block of an eager VMA. -/
def frameAt (r : VmaRegion) (i : Nat) : Nat := wadd r.phys (i * pageSize)

/-- `file_pages`. -/
def filePages (r : VmaRegion) : Nat := wadd r.fileLen (pageSize - 1) / pageSize

def tracksWritten (r : VmaRegion) : Bool := r.lazy && r.fileCap.isFileBacked

def setWritten (r : VmaRegion) (idx : Nat) (on : Bool) : VmaRegion :=
  if on then
    if !r.tracksWritten || decide (idx ≥ r.filePages) then r
    else { r with written := Function.update r.written idx true }
  else { r with written := Function.update r.written idx false }

def cleanFilePage (r : VmaRegion) (idx : Nat) : Bool :=
  r.tracksWritten && decide (idx < r.filePages) && !r.written idx

/-- `pagecache::pgoff_of`. -/
def pgoffOf (off : Nat) : Option Nat := if off % pageSize = 0 then some (off / pageSize) else none

def cachePgoff (r : VmaRegion) (idx : Nat) : Option Nat :=
  if !r.lazy || !r.fileCap.isFileBacked then none
  else if r.mapFlags.eofSigbus then
    if idx * pageSize ≥ r.fileLen then none else pgoffOf (wadd r.fileOff (idx * pageSize))
  else if (idx + 1) * pageSize > r.fileLen then none
  else pgoffOf (wadd r.fileOff (idx * pageSize))

def installFlags (r : VmaRegion) (idx : Nat) (fl : PageFlags) : PageFlags :=
  if fl.writable && r.cleanFilePage idx then fl.readOnly else fl

/-- `lazy_pages.resize(n, 0)` if it is shorter. -/
def growTo (r : VmaRegion) (n : Nat) : VmaRegion :=
  if r.lazyPages.len < n then { r with lazyPages := r.lazyPages.resize n } else r

/-- `lazy_pages[idx] = phys` of a page that was absent. -/
def addPage (r : VmaRegion) (idx phys : Nat) : VmaRegion :=
  { r with lazyPages := r.lazyPages.set idx phys, lazyCount := r.lazyCount + 1 }

/-- The PTE flags `install_cached` asks for. -/
def cachedFlags (r : VmaRegion) (idx : Nat) (written : Bool) : PageFlags :=
  if written then r.flags else (r.installFlags idx r.flags).readOnly

/-- `install_cached`: false if the PTE could not be installed. -/
def installCached (env : Env) (root : Nat) (r : VmaRegion) (vm : Vm) (idx phys : Nat)
    (written : Bool) : Bool × VmaRegion × Vm :=
  let r := (r.growTo (min (idx + 1) r.pages)).setWritten idx written
  if env.install root (r.pageVa idx) then
    (true, r.addPage idx phys, vm.mapPage root (r.pageVa idx) phys (r.cachedFlags idx written))
  else (false, r, vm)

/-! ### Faults on a present page -/

/-- The copy-on-write promotion, with `COW_LOCK` held: reuse the frame of a sole
owner, copy a shared one. -/
def promote (env : Env) (root : Nat) (r : VmaRegion) (vm : Vm) (va idx phys : Nat) :
    Fault × VmaRegion × Vm :=
  if vm.refs phys ≤ 1 then
    if env.install root va then
      (.handled, r.setWritten idx true, vm.mapPage root va phys r.flags)
    else (.segv, r, vm)
  else
    match vm.alloc (env.frame 0) 0 with
    | none => (.segv, r, vm)
    | some (new, vm) =>
      let vm := (vm.copyFrame phys new).unmapPage root va
      if env.install root va then
        (.handled, { r with lazyPages := r.lazyPages.set idx new }.setWritten idx true,
          (vm.mapPage root va new r.flags).dec phys)
      else (.segv, r, vm.free new 0)

/-- The first write to a page of a shared file mapping. -/
def sharedWrite (env : Env) (root : Nat) (r : VmaRegion) (vm : Vm) (va idx phys cap : Nat) :
    Fault × VmaRegion × Vm :=
  let vm := match r.cachePgoff idx with
    | some pg => vm.markDirty (env.fileKey cap) pg phys
    | none => vm
  if env.install root va then
    (.handled, r.setWritten idx true, vm.mapPage root va phys r.flags)
  else (.segv, r, vm)

/-- Is this the first write to a clean page of a writable VMA? -/
def cleanWrite (r : VmaRegion) (idx : Nat) (isWrite : Bool) : Bool :=
  isWrite && r.flags.writable && r.cleanFilePage idx

def presentFault (env : Env) (root : Nat) (r : VmaRegion) (vm : Vm) (va idx phys : Nat)
    (isWrite : Bool) : Fault × VmaRegion × Vm :=
  match r.fileCap, r.mapFlags.shared && r.cleanWrite idx isWrite with
  | .file cap, true => r.sharedWrite env root vm va idx phys cap
  | _, _ =>
    if !(isWrite && (r.cow || r.cleanWrite idx isWrite)) then
      (if !isWrite || r.prot.write then .handled else .segv, r, vm)
    else r.promote env root vm va idx phys

/-! ### Faults on an absent page -/

/-- The cached pages after the faulting one, from `idx + i`; `fuel` pages at most. -/
def faultAround (env : Env) (root key idx : Nat) : Nat → Nat → VmaRegion → Vm → VmaRegion × Vm
  | 0, _, r, vm => (r, vm)
  | fuel + 1, i, r, vm =>
    if idx + i < r.pages ∧ r.lazyPages.slot (idx + i) = 0 then
      match r.cachePgoff (idx + i) with
      | none => (r, vm)
      | some pg =>
        match vm.lookup key pg r.flags.execute with
        | (none, vm) => (r, vm)
        | (some phys, vm) =>
          match r.installCached env root vm (idx + i) phys false with
          | (true, r, vm) => faultAround env root key idx fuel (i + 1) r vm
          | (false, r, vm) => (r, vm.unref phys)
    else (r, vm)

/-- A page-cache hit on the faulting page. -/
def cacheHit (env : Env) (root : Nat) (r : VmaRegion) (vm : Vm) (idx key pg phys : Nat)
    (isWrite : Bool) : Fault × VmaRegion × Vm :=
  let sharedW := isWrite && r.mapFlags.shared && r.flags.writable
  let vm := if sharedW then vm.markDirty key pg phys else vm
  match r.installCached env root vm idx phys sharedW with
  | (false, r, vm) => (.segv, r, vm.unref phys)
  | (true, r, vm) =>
    let rest := faultAround env root key idx (faultAroundPages - 1) 1 r vm
    (.handled, rest.1, rest.2)

/-- The length of the fault-around window: `n` pages so far. -/
def windowLoop (r : VmaRegion) (idx : Nat) : Nat → Nat → Nat
  | 0, n => n
  | fuel + 1, n =>
    if idx + n < r.pages ∧ r.lazyPages.slot (idx + n) = 0 then windowLoop r idx fuel (n + 1) else n

/-- The read of a fault that missed the cache. -/
def readPlan (r : VmaRegion) (va idx cap key : Nat) (isWrite : Bool) : FileFault :=
  let n := windowLoop r idx (faultAroundPages - 1) 1
  let winOff := idx * pageSize
  { cap := cap
    pageVa := va
    pos := wadd r.fileOff winOff
    len := if winOff < r.fileLen then min (r.fileLen - winOff) (n * pageSize) else 0
    window := n
    eofSigbus := r.mapFlags.eofSigbus
    key := key
    write := isWrite }

def absentFileFault (env : Env) (root : Nat) (r : VmaRegion) (vm : Vm) (va idx cap : Nat)
    (isWrite : Bool) : FaultPlan × VmaRegion × Vm :=
  match r.cachePgoff idx with
  | none => (.read (r.readPlan va idx cap 0 isWrite), r, vm)
  | some pg =>
    let key := env.fileKey cap
    if key = 0 then (.read (r.readPlan va idx cap 0 isWrite), r, vm)
    else
      match vm.lookup key pg r.flags.execute with
      | (some phys, vm) =>
        let out := r.cacheHit env root vm idx key pg phys isWrite
        (.done out.1, out.2)
      | (none, vm) => (.read (r.readPlan va idx cap key isWrite), r, vm)

def absentAnonFault (env : Env) (root : Nat) (r : VmaRegion) (vm : Vm) (va idx : Nat)
    (isWrite : Bool) : Fault × VmaRegion × Vm :=
  if isWrite && !r.prot.write && !r.flags.writable then (.segv, r, vm)
  else
    match vm.alloc (env.frame 0) 0 with
    | none => (.segv, r, vm)
    | some (phys, vm) =>
      let vm := vm.zeroFrame phys
      if env.install root va then
        (.handled, (r.growTo (idx + 1)).addPage idx phys, vm.mapPage root va phys r.flags)
      else (.segv, r, vm.free phys 0)

/-- `plan_user_page_fault`, once the VMA is found. -/
def planFault (env : Env) (root : Nat) (r : VmaRegion) (vm : Vm) (faultVa : Nat) (isWrite : Bool) :
    FaultPlan × VmaRegion × Vm :=
  if !r.lazy then (.done .segv, r, vm)
  else if !r.prot.access then (.done .segv, r, vm)
  else
    let va := alignDown faultVa pageSize
    let idx := wsub va r.start / pageSize
    let phys := r.lazyPages.slot idx
    if phys ≠ 0 then
      let out := r.presentFault env root vm va idx phys isWrite
      (.done out.1, out.2)
    else
      match r.fileCap with
      | .file cap => r.absentFileFault env root vm va idx cap isWrite
      | _ =>
        let out := r.absentAnonFault env root vm va idx isWrite
        (.done out.1, out.2)

/-! ### The second half of a file fault -/

/-- Fresh memory for page `idx`, the `i`-th of the window: the bytes read, then zeros. -/
def privatePage (env : Env) (root : Nat) (r : VmaRegion) (vm : Vm) (idx i valid : Nat)
    (data : List Nat) : Option Fault × VmaRegion × Vm :=
  let failed := if i > 0 then Fault.handled else .segv
  match vm.alloc (env.frame i) 0 with
  | none => (some failed, r, vm)
  | some (phys, vm) =>
    let vm := vm.fill phys fun off =>
      if off < min (valid - i * pageSize) pageSize then data.getD (i * pageSize + off) 0 else 0
    let r := r.setWritten idx false
    if env.install root (r.pageVa idx) then
      (none, r.addPage idx phys, vm.mapPage root (r.pageVa idx) phys (r.installFlags idx r.flags))
    else (some failed, r, vm.unref phys)

/-- The cache index of page `idx`, if the read left it a whole cached page. -/
def windowPgoff (r : VmaRegion) (p : FileFault) (idx i valid : Nat) : Option Nat :=
  let copyStart := i * pageSize
  if p.key ≠ 0 ∧ (copyStart + pageSize ≤ valid ∨ (p.eofSigbus = true ∧ copyStart < valid)) then
    r.cachePgoff idx
  else none

/-- The part of a page of the window after the cache missed. -/
def uncachedPage (env : Env) (root : Nat) (r : VmaRegion) (vm : Vm) (p : FileFault)
    (idx i valid : Nat) (data : List Nat) : Option Fault × VmaRegion × Vm :=
  if r.mapFlags.shared ∧ p.key ≠ 0 then (if i = 0 then some .handled else none, r, vm)
  else r.privatePage env root vm idx i valid data

/-- One absent page of the window; `some` ends the loop. -/
def installPage (env : Env) (root : Nat) (r : VmaRegion) (vm : Vm) (p : FileFault)
    (idx i valid : Nat) (data : List Nat) : Option Fault × VmaRegion × Vm :=
  match r.windowPgoff p idx i valid with
  | none => r.uncachedPage env root vm p idx i valid data
  | some pg =>
    match vm.lookup p.key pg r.flags.execute with
    | (none, vm) => r.uncachedPage env root vm p idx i valid data
    | (some phys, vm) =>
      let sharedW := r.mapFlags.shared && decide (i = 0) && p.write && r.flags.writable
      let vm := if sharedW then vm.markDirty p.key pg phys else vm
      match r.installCached env root vm idx phys sharedW with
      | (true, r, vm) => (none, r, vm)
      | (false, r, vm) => (some (if i > 0 then .handled else .segv), r, vm.unref phys)

/-- The loop of `install_file_fault`; `none`: an index past `lazy_pages`, a panic. -/
def installLoop (env : Env) (root : Nat) (p : FileFault) (pageIdx valid : Nat) (data : List Nat) :
    Nat → Nat → VmaRegion → Vm → Option (Fault × VmaRegion × Vm)
  | 0, _, r, vm => some (.handled, r, vm)
  | fuel + 1, i, r, vm =>
    let idx := pageIdx + i
    if idx ≥ r.pages then some (.handled, r, vm)
    else
      match r.lazyPages.get idx with
      | none => none
      | some phys =>
        if phys ≠ 0 then installLoop env root p pageIdx valid data fuel (i + 1) r vm
        else
          match r.installPage env root vm p idx i valid data with
          | (some f, r, vm) => some (f, r, vm)
          | (none, r, vm) => installLoop env root p pageIdx valid data fuel (i + 1) r vm

/-- The answer of a read: how many bytes are valid, and how many pages to populate. -/
def readResult (p : FileFault) (dataLen : Nat) (got : Int) : Except Fault (Nat × Nat) :=
  if p.eofSigbus then
    if got < 0 then .error .bus
    else
      let valid := min (min got.toNat p.len) dataLen
      if valid = 0 then .error .bus
      else .ok (valid, min ((valid + pageSize - 1) / pageSize) p.window)
  else if p.len ≠ 0 ∧ got ≠ p.len then .error .segv
  else .ok (min p.len dataLen, p.window)

/-- Does the VMA still map what the fault read? -/
def stillMaps (r : VmaRegion) (p : FileFault) (pageIdx : Nat) : Bool :=
  r.lazy && decide (r.fileCap = .file p.cap) &&
    decide (wadd r.fileOff (pageIdx * pageSize) = p.pos) && decide (r.mapFlags.eofSigbus = p.eofSigbus)

/-- `install_file_fault`, once the VMA is found. -/
def installFault (env : Env) (root : Nat) (r : VmaRegion) (vm : Vm) (p : FileFault)
    (data : List Nat) (got : Int) : Option (Fault × VmaRegion × Vm) :=
  let pageIdx := wsub p.pageVa r.start / pageSize
  if !r.stillMaps p pageIdx then some (.handled, r, vm)
  else if r.lazyPages.slot pageIdx ≠ 0 then some (.handled, r, vm)
  else
    match readResult p data.length got with
    | .error f => some (f, r, vm)
    | .ok (valid, pages) =>
      let r := r.growTo (min (wadd pageIdx pages) r.pages)
      installLoop env root p pageIdx valid data pages 0 r vm

end VmaRegion

end Leandros.Mm.Vmm
