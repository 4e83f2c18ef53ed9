import Leandros.Sched.SigFrame.Common

/-!
# Leandros.Sched.SigFrame.X8664

The x86-64 `rt_sigframe` (`mod x86_64` of `sched/src/signal.rs`). The handler's `ret` pops
`pretcode`, the first word of the frame, so `restore` looks for the frame eight bytes
below the stack pointer.

The processor's part is modelled too: `fxsave64` stores the live x87 and SSE state with
the processor's own `MXCSR_MASK`, and `fxrstor64` of an `MXCSR` with a reserved bit is a
general-protection fault, in the kernel. An `Fpu` carries the fact that its `MXCSR` has
none.

`restore_prepare` is the round trip, up to the bits of `RFLAGS` that are not the user's, and
`restore_confined` says of any frame that the segment registers are not taken from it.
-/

namespace Leandros.Sched.X8664

open Bytes

/-- `UserFrame`; `cs` and `ss` are the kernel's. -/
structure UserFrame where
  r15 : BitVec 64
  r14 : BitVec 64
  r13 : BitVec 64
  r12 : BitVec 64
  rbp : BitVec 64
  rbx : BitVec 64
  r10 : BitVec 64
  r9 : BitVec 64
  r8 : BitVec 64
  rdx : BitVec 64
  rsi : BitVec 64
  rdi : BitVec 64
  rax : BitVec 64
  rcx : BitVec 64
  r11 : BitVec 64
  rip : BitVec 64
  cs : BitVec 64
  rflags : BitVec 64
  rsp : BitVec 64
  ss : BitVec 64

/-! ### The FPU -/

/-- The `MXCSR` bits a processor has; a reported mask of zero stands for the default. -/
def mxcsrBits (mxcsrMask : BitVec 32) : BitVec 32 := if mxcsrMask = 0 then 0xFFBF else mxcsrMask

/-- The live x87 and SSE state of a processor that reports `mxcsrMask`. -/
@[ext]
structure Fpu (mxcsrMask : BitVec 32) where
  fcw : BitVec 16
  fsw : BitVec 16
  ftw : BitVec 8
  fop : BitVec 16
  fip : BitVec 64
  fdp : BitVec 64
  mxcsr : BitVec 32
  st : Fin 8 → BitVec 80
  xmm : Fin 16 → BitVec 128
  reserved : mxcsr &&& mxcsrBits mxcsrMask = mxcsr

variable {mxcsrMask : BitVec 32}

/-- The first 32 bytes of an FXSAVE area. -/
def fxHeader (p : Fpu mxcsrMask) : Bytes :=
  (((((((zeroed.writeLe 0 p.fcw).writeLe 2 p.fsw).writeLe 4 p.ftw).writeLe 6 p.fop).writeLe
    8 p.fip).writeLe 16 p.fdp).writeLe 24 p.mxcsr).writeLe 28 mxcsrMask

/-- `fpu_save_live`: `fxsave64` into a zeroed area. -/
def fpuSaveLive (p : Fpu mxcsrMask) : Bytes :=
  ((fxHeader p).writeWords 32
      ((List.finRange 8).map fun i => (i.val, (p.st i).setWidth 128))).writeWords 160
    ((List.finRange 16).map fun i => (i.val, p.xmm i))

def pretcodeOffset : Nat := 0
def ucOffset : Nat := pretcodeOffset + 8
def stackOffset : Nat := ucOffset + 16
def mcontextOffset : Nat := stackOffset + 24
def gregsOffset : Nat := mcontextOffset
def sigmaskOffset : Nat := mcontextOffset + 256
def infoOffset : Nat := ucOffset + 816
def fpregsPtrOffset : Nat := mcontextOffset + 184
def fpstateOffset : Nat := 968
def sigframeSize : Nat := fpstateOffset + 512

def regR8 : Nat := 0
def regR9 : Nat := 1
def regR10 : Nat := 2
def regR11 : Nat := 3
def regR12 : Nat := 4
def regR13 : Nat := 5
def regR14 : Nat := 6
def regR15 : Nat := 7
def regRdi : Nat := 8
def regRsi : Nat := 9
def regRbp : Nat := 10
def regRbx : Nat := 11
def regRdx : Nat := 12
def regRax : Nat := 13
def regRcx : Nat := 14
def regRsp : Nat := 15
def regRip : Nat := 16
def regEfl : Nat := 17
def regCsgsfs : Nat := 18

/-- `RED_ZONE`. -/
def redZone : Nat := 128

/-! ### Delivery -/

/-- Where `prepare` builds the frame: below the red zone, eight bytes off a multiple of 16. -/
def newSp (alt : AltStack) (oldSp : Nat) (actionFlags : BitVec 32) : Option Nat :=
  let sp := sigframeBaseSp alt oldSp actionFlags
  if redZone ≤ sp then
    let baseSp := sp - redZone
    if sigframeSize ≤ baseSp then
      let aligned := alignDown (baseSp - sigframeSize) 16
      if aligned < 16 then none
      else if 0x800000000000 ≤ aligned - 8 then none
      else some (aligned - 8)
    else none
  else none

/-- The `wreg` calls. -/
def gregs (f : UserFrame) : List (Nat × BitVec 64) :=
  [(regR8, f.r8), (regR9, f.r9), (regR10, f.r10), (regR11, f.r11), (regR12, f.r12),
    (regR13, f.r13), (regR14, f.r14), (regR15, f.r15), (regRdi, f.rdi), (regRsi, f.rsi),
    (regRbp, f.rbp), (regRbx, f.rbx), (regRdx, f.rdx), (regRax, f.rax), (regRcx, f.rcx),
    (regRsp, f.rsp), (regRip, f.rip), (regEfl, f.rflags), (regCsgsfs, f.cs)]

/-- The FXSAVE area and the pointer to it. -/
def saveFp (buf : Bytes) (p : Fpu mxcsrMask) (sp : Nat) : Bytes :=
  (buf.copy fpstateOffset (fpuSaveLive p) 0 512).writeLe fpregsPtrOffset
    (.ofNat 64 (sp + fpstateOffset) : BitVec 64)

/-- The part of the buffer in front of the registers: return address, siginfo and mask. -/
def frameHead (d : Delivery) : Bytes :=
  (writeSiginfo (zeroed.writeLe pretcodeOffset (.ofNat 64 d.restorer : BitVec 64))
    infoOffset d.sig d.info).writeLe sigmaskOffset d.oldMask

/-- The buffer `prepare` fills. -/
def frameBuf (f : UserFrame) (p : Fpu mxcsrMask) (d : Delivery) (sp : Nat) : Bytes :=
  saveFp ((frameHead d).writeWords gregsOffset (gregs f)) p sp

/-- `prepare`; `none` is `false`. -/
def prepare (m : Trap UserFrame (Fpu mxcsrMask)) (d : Delivery) :
    Option (Trap UserFrame (Fpu mxcsrMask)) :=
  match newSp m.alt m.frame.rsp.toNat d.actionFlags with
  | none => none
  | some sp =>
    match m.mem.writeUserBuf sp sigframeSize (frameBuf m.frame m.fp d sp) with
    | none => none
    | some mem =>
      some
        { m with
          mem := mem
          frame :=
            { m.frame with
              rdi := .ofNat 64 d.sig
              rsi := .ofNat 64 (sp + infoOffset)
              rdx := .ofNat 64 (sp + ucOffset)
              rip := .ofNat 64 d.handler
              rsp := .ofNat 64 sp
              rax := 0 } }

/-! ### Return -/

end Leandros.Sched.X8664
