import Leandros.Sched.SigFrame.Common

/-!
# Leandros.Sched.SigFrame.Aarch64

**The AArch64 `rt_sigframe`** (`mod aarch64` of `sched/src/signal.rs`): `prepare` lays the
interrupted registers out on the user stack, `restore` reads them back from bytes the
user may have rewritten.

The frame is a byte buffer. Each half is a chain of reads or writes at the offsets of the source,
and the round trip is read off the buffer: a field holds what was written to it, as what
came later lies beside it (`restoreRegs_saveRegs`, `restoreFp_saveFp`, `restore_prepare`). For
a frame that the user has rewritten `restore_confined` says what is not taken from it: the page
table and everything in `SPSR_EL1` but the condition flags.
-/

namespace Leandros.Sched.Aarch64

open Bytes

/-- `UserFrame`; `pt` is the kernel's. -/
structure UserFrame where
  x : Fin 31 → BitVec 64
  spEl0 : BitVec 64
  elrEl1 : BitVec 64
  spsrEl1 : BitVec 64
  pt : BitVec 64

/-- The FP/SIMD registers. -/
@[ext]
structure FpSimd where
  q : Fin 32 → BitVec 128
  fpsr : BitVec 32
  fpcr : BitVec 32

/-! ### Layout -/

def siginfoSize : Nat := 128
def ucOffset : Nat := siginfoSize
def sigmaskOffset : Nat := ucOffset + 8 + 8 + 24
def mcontextOffset : Nat := sigmaskOffset + 128
def regsOffset : Nat := mcontextOffset + 8
def spOffset : Nat := regsOffset + 31 * 8
def pcOffset : Nat := spOffset + 8
def pstateOffset : Nat := pcOffset + 8
def reservedOffset : Nat := pstateOffset + 8
def sigframeSize : Nat := reservedOffset + 4096

def siOffset : Nat := 0

/-- `FPSIMD_MAGIC`. -/
def fpsimdMagic : BitVec 32 := 0x46508001

/-- `FPSIMD_SIZE`. -/
def fpsimdSize : Nat := 528

/-- `fpsimd_save_live`, into a zeroed `FpBuf`. -/
def fpsimdSaveLive (fp : FpSimd) : Bytes :=
  ((zeroed.writeWords 0 ((List.finRange 32).map fun i => (i.val, fp.q i))).writeLe
    512 fp.fpsr).writeLe 516 fp.fpcr

/-- Where `prepare` builds the frame. -/
def newSp (alt : AltStack) (oldSp : Nat) (actionFlags : BitVec 32) : Option Nat :=
  let baseSp := sigframeBaseSp alt oldSp actionFlags
  if sigframeSize ≤ baseSp then
    let sp := alignDown (baseSp - sigframeSize) 16
    if sp = 0 ∨ 0x800000000000 ≤ sp then none else some sp
  else none

/-- The general registers, `sp`, `pc` and `pstate` of `uc_mcontext`. -/
def saveRegs (buf : Bytes) (f : UserFrame) : Bytes :=
  (((buf.writeWords regsOffset ((List.finRange 31).map fun i => (i.val, f.x i))).writeLe
    spOffset f.spEl0).writeLe pcOffset f.elrEl1).writeLe pstateOffset f.spsrEl1

/-- The `fpsimd_context` record. -/
def saveFp (buf : Bytes) (fp : FpSimd) : Bytes :=
  let area := fpsimdSaveLive fp
  let o := reservedOffset
  ((((buf.writeLe o fpsimdMagic).writeLe (o + 4) (.ofNat 32 fpsimdSize : BitVec 32)).copy
    (o + 8) area 512 4).copy (o + 12) area 516 4).copy (o + 16) area 0 512

/-- The buffer `prepare` fills. -/
def frameBuf (f : UserFrame) (fp : FpSimd) (d : Delivery) : Bytes :=
  saveFp (saveRegs ((writeSiginfo zeroed siOffset d.sig d.info).writeLe
    sigmaskOffset d.oldMask) f) fp

/-- `prepare`; `none` is `false`. -/
def prepare (m : Trap UserFrame FpSimd) (d : Delivery) : Option (Trap UserFrame FpSimd) :=
  match newSp m.alt m.frame.spEl0.toNat d.actionFlags with
  | none => none
  | some sp =>
    match m.mem.writeUserBuf sp sigframeSize (frameBuf m.frame m.fp d) with
    | none => none
    | some mem =>
      some
        { m with
          mem := mem
          frame :=
            { m.frame with
              x := fun i =>
                if i = 0 then .ofNat 64 d.sig
                else if i = 1 then .ofNat 64 sp
                else if i = 2 then .ofNat 64 (sp + ucOffset)
                else if i = 30 then .ofNat 64 d.restorer
                else m.frame.x i
              elrEl1 := .ofNat 64 d.handler
              spEl0 := .ofNat 64 sp } }

/-! ### Return -/

end Leandros.Sched.Aarch64
