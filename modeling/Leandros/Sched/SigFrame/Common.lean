import Leandros.Lib.Bytes
import Leandros.Lib.Usize
import Leandros.Sched.Signal

/-!
# Leandros.Sched.SigFrame.Common

What the two architectures' signal frames share (`sched/src/signal.rs`): the choice of
the stack, the `siginfo_t` fields, and user memory as the frame code sees it.

* `UserMem` is the thread group's address space behind `write_user_buf` and
  `read_user_buf`: its bytes, and where it lets the two go.
* A `Trap` is the thread in the kernel: its saved user registers, the live FP state
  (the kernel is soft-float, so it is the user's), memory and the run queue.
-/

namespace Leandros.Sched

/-! ### User memory -/

/-- A thread group's user memory. -/
structure UserMem where
  bytes : Bytes
  readable : Nat → Bool
  writable : Nat → Bool

namespace UserMem

/-- `write_user_buf(va, &buf[..len])`; `none` is `false`. The bytes written before the page
that fails are left out: the caller then kills the group. -/
@[irreducible] def writeUserBuf (m : UserMem) (va len : Nat) (buf : Bytes) : Option UserMem :=
  if (List.range len).all fun i => m.writable (va + i) then
    some { m with bytes := m.bytes.copy va buf 0 len }
  else none

/-- The `len` bytes at `va` are the same in both memories, and the second can be read there. -/
structure Keeps (m m' : UserMem) (va len : Nat) : Prop where
  bytes : ∀ i, i < len → m'.bytes (va + i) = m.bytes (va + i)
  readable : ∀ i, i < len → m'.readable (va + i) = true

end UserMem

/-! ### The thread in the kernel -/

/-- The alternate signal stack, as `current_altstack` reports it. -/
structure AltStack where
  sp : Nat
  size : Nat
  flags : BitVec 32

/-- A thread in the kernel, with its saved user registers. -/
structure Trap (Frame Fp : Type) where
  frame : Frame
  fp : Fp
  mem : UserMem
  alt : AltStack
  rq : RunQueue

/-- What `arch_prepare_signal_frame` is called with. -/
structure Delivery where
  sig : Nat
  handler : Nat
  restorer : Nat
  oldMask : SigSet
  actionFlags : BitVec 32
  info : SigInfo

/-- `SA_ONSTACK`. -/
def saOnstack : BitVec 32 := 0x08000000

/-- `SS_DISABLE`. -/
def ssDisable : BitVec 32 := 2

/-- `on_altstack`. -/
def onAltstack (sp altSp altSize : Nat) : Bool := altSize != 0 && wsub sp altSp < altSize

/-- `sigframe_base_sp`. -/
def sigframeBaseSp (alt : AltStack) (oldSp : Nat) (actionFlags : BitVec 32) : Nat :=
  if actionFlags &&& saOnstack = 0 then oldSp
  else if alt.flags &&& ssDisable = 0 ∧ alt.size ≠ 0 ∧ onAltstack oldSp alt.sp alt.size = false then
    wadd alt.sp alt.size
  else oldSp

/-! ### siginfo -/

namespace SiOff

def signo : Nat := 0
def code : Nat := 8
def pid : Nat := 16
def uid : Nat := 20
def status : Nat := 24
def addr : Nat := 16
def value : Nat := 24

end SiOff

/-- `SI_TIMER`. -/
def siTimer : Int := -2

/-- `write_siginfo`. -/
def writeSiginfo (buf : Bytes) (base sig : Nat) (info : SigInfo) : Bytes :=
  let put (off : Nat) (v : BitVec 32) (buf : Bytes) := buf.writeLe (base + off) v
  let head := put SiOff.code (.ofInt 32 info.siCode) (put SiOff.signo (.ofNat 32 sig) buf)
  let sender := put SiOff.uid (.ofNat 32 info.siUid) (put SiOff.pid (.ofInt 32 info.siPid) head)
  if 1 ≤ sig ∧ sig ≤ 64 ∧ synchronousMask.has sig ∧ 0 < info.siCode then
    head.writeLe (base + SiOff.addr) (.ofNat 64 info.siAddr : BitVec 64)
  else if info.siCode = siTimer then
    sender.writeLe (base + SiOff.value) (.ofNat 64 info.siValue : BitVec 64)
  else if info.siCode = -1 then
    -- SI_QUEUE
    sender.writeLe (base + SiOff.value) (.ofNat 64 info.siValue : BitVec 64)
  else put SiOff.status (.ofInt 32 info.siStatus) sender

end Leandros.Sched
