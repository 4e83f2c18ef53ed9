import Leandros.Lib.Machine
import Leandros.Sched.SigFrame.Aarch64
import Leandros.Sched.SigFrame.X8664

/-!
# Leandros.Sched.SigFrame.AltStack

The alternate signal stack over a run of one thread: `sigaltstack` calls, deliveries
and whatever user code does in between.

`sys_sigaltstack` accepts a stack of `MINSIGSTKSZ` bytes, and `prepare` never compares
the frame with the stack it builds it on. **A frame stays on the stack exactly as far as
there is room for it** (`altstack_frames_stay`): with less, it is written below `ss_sp`
(`altstack_frame_escapes`), and as the handler then runs off the stack, the next signal
starts at the top again.
-/

namespace Leandros.Sched

open Bytes
open Bool (and_eq_true)

/-- `SS_ONSTACK`. -/
def ssOnstack : BitVec 32 := 1

/-- `MINSIGSTKSZ`. -/
def minsigstksz : Nat := 2048

/-- `sys_sigaltstack`, with what `ss` holds (`none` for a null pointer): the result, what is
written to `oss`, and the stack from now on. -/
def sysSigaltstack (alt : AltStack) (userSp : Nat) (ss : Option AltStack) :
    Int × AltStack × AltStack :=
  let active : Bool := alt.flags &&& ssDisable = 0 && onAltstack userSp alt.sp alt.size
  let oss := { alt with flags := if active then ssOnstack else alt.flags }
  match ss with
  | none => (0, oss, alt)
  | some new =>
    if active then (-1, oss, alt)
    else if new.flags &&& ~~~ssDisable ≠ 0 then (-22, oss, alt)
    else if new.flags &&& ssDisable ≠ 0 then (0, oss, ⟨0, 0, ssDisable⟩)
    else if new.size < minsigstksz then (-12, oss, alt)
    else (0, oss, ⟨new.sp, new.size, 0⟩)

/-- `write_user_buf` with what it leaves behind: bytes are stored up to the first that cannot
be. -/
def UserMem.writeUpTo (m : UserMem) (va len : Nat) (buf : Bytes) : UserMem × Bool :=
  let n := ((List.range len).takeWhile fun i => m.writable (va + i)).length
  ({ m with bytes := m.bytes.copy va buf 0 n }, n == len)

/-- Nothing is stored if the first byte cannot be. -/
theorem UserMem.writeUpTo_blocked {m : UserMem} {va len : Nat} (buf : Bytes) (hlen : 0 < len)
    (h : m.writable va = false) : m.writeUpTo va len buf = (m, false) := by
  obtain ⟨len, rfl⟩ := Nat.exists_eq_add_of_lt hlen
  have hcopy : m.bytes.copy va buf 0 0 = m.bytes := funext fun i => if_neg (by omega)
  simp [UserMem.writeUpTo, List.range_succ_eq_map, h, hcopy]

/-! ### The two architectures -/

/-- Where an architecture puts its frame: `newSp` takes `need` bytes off the base, rounds down
to a multiple of 16 and goes `skew` bytes below it. -/
structure FrameLayout where
  size : Nat
  need : Nat
  skew : Nat
  newSp : AltStack → Nat → BitVec 32 → Option Nat
  size_pos : 0 < size
  size_le : size ≤ need
  newSp_eq : ∀ {alt : AltStack} {oldSp sp : Nat} {flags : BitVec 32},
    newSp alt oldSp flags = some sp → need ≤ sigframeBaseSp alt oldSp flags ∧
      sp + skew = alignDown (sigframeBaseSp alt oldSp flags - need) 16 ∧
      0 < sp ∧ sp < 0x800000000000

variable {alt : AltStack} {oldSp sp : Nat} {flags : BitVec 32}

theorem Aarch64.newSp_eq (h : Aarch64.newSp alt oldSp flags = some sp) :
    Aarch64.sigframeSize ≤ sigframeBaseSp alt oldSp flags ∧
      sp + 0 = alignDown (sigframeBaseSp alt oldSp flags - Aarch64.sigframeSize) 16 ∧
      0 < sp ∧ sp < 0x800000000000 := by
  simp only [Aarch64.newSp] at h
  split_ifs at h with h1 h2
  cases h
  exact ⟨h1, Nat.add_zero _, by omega, by omega⟩

theorem X8664.newSp_eq (h : X8664.newSp alt oldSp flags = some sp) :
    X8664.redZone + X8664.sigframeSize ≤ sigframeBaseSp alt oldSp flags ∧
      sp + 8 = alignDown (sigframeBaseSp alt oldSp flags -
        (X8664.redZone + X8664.sigframeSize)) 16 ∧ 0 < sp ∧ sp < 0x800000000000 := by
  simp only [X8664.newSp, Nat.sub_sub] at h
  split_ifs at h with h1 h2 h3 h4
  cases h
  exact ⟨by omega, by omega, by omega, by omega⟩

inductive Arch
  | aarch64
  | x8664

def Arch.layout : Arch → FrameLayout
  | .aarch64 =>
    { size := Aarch64.sigframeSize
      need := Aarch64.sigframeSize
      skew := 0
      newSp := Aarch64.newSp
      size_pos := by decide
      size_le := le_rfl
      newSp_eq := Aarch64.newSp_eq }
  | .x8664 =>
    { size := X8664.sigframeSize
      need := X8664.redZone + X8664.sigframeSize
      skew := 8
      newSp := X8664.newSp
      size_pos := by decide
      size_le := Nat.le_add_left _ _
      newSp_eq := X8664.newSp_eq }

namespace FrameLayout

/-- Where the frame below base `b` starts. -/
def start (lay : FrameLayout) (b : Nat) : Nat := alignDown (b - lay.need) 16 - lay.skew

/-- The lowest base whose frame starts at or above `x`. -/
def lowest (lay : FrameLayout) (x : Nat) : Nat := (x + lay.skew + 15) / 16 * 16 + lay.need

variable {lay : FrameLayout} {x : Nat} (h : lay.newSp alt oldSp flags = some sp)
include h

theorem le_newSp_iff : x ≤ sp ↔ lay.lowest x ≤ sigframeBaseSp alt oldSp flags := by
  obtain ⟨h1, h2, -⟩ := lay.newSp_eq h
  rw [alignDown] at h2
  rw [lowest]
  omega

theorem newSp_eq_start : sp = lay.start (sigframeBaseSp alt oldSp flags) :=
  Nat.eq_sub_of_add_eq (lay.newSp_eq h).2.1

theorem newSp_add_size_le : sp + lay.size ≤ sigframeBaseSp alt oldSp flags := by
  obtain ⟨h1, h2, -⟩ := lay.newSp_eq h
  have h3 := alignDown_le (sigframeBaseSp alt oldSp flags - lay.need) 16
  have h4 := lay.size_le
  omega

end FrameLayout

/-! ### A thread and its signals -/

/-- A thread at the edge of the kernel. `onStack` records that it runs a handler that was
started on the alternate stack and has not moved its stack pointer off it. -/
structure AltThread where
  alt : AltStack
  sp : Nat
  mem : UserMem
  onStack : Bool
  alive : Bool

inductive AltAction
  | sigaltstack (ss : Option AltStack)
  /-- User code runs, and comes back with this stack pointer and memory. -/
  | run (sp : Nat) (mem : UserMem)
  | deliver (flags : BitVec 32) (frame : Bytes)

/-- `sp` lies in `[ss_sp, ss_sp + ss_size)`. -/
def AltStack.holds (alt : AltStack) (sp : Nat) : Bool := alt.sp ≤ sp && sp < alt.sp + alt.size

/-- The signal's handler has `SA_ONSTACK` and there is a stack for it. -/
def AltStack.used (alt : AltStack) (flags : BitVec 32) : Bool :=
  flags &&& saOnstack ≠ 0 && alt.flags &&& ssDisable = 0 && alt.size ≠ 0

namespace AltThread

/-- The stack part of `prepare`; a delivery that fails is the end of the thread group. -/
def deliver (lay : FrameLayout) (t : AltThread) (flags : BitVec 32) (frame : Bytes) : AltThread :=
  match lay.newSp t.alt t.sp flags with
  | none => { t with alive := false }
  | some sp =>
    let w := t.mem.writeUpTo sp lay.size frame
    if w.2 then
      { t with mem := w.1, sp := sp, onStack := t.alt.used flags || (t.onStack && t.alt.holds sp) }
    else { t with mem := w.1, alive := false }

def step (arch : Arch) (t : AltThread) (a : AltAction) : Option AltThread :=
  if t.alive then
    match a with
    | .sigaltstack ss => some { t with alt := (sysSigaltstack t.alt t.sp ss).2.2 }
    | .run sp mem =>
      some { t with sp := sp, mem := mem, onStack := t.onStack && t.alt.holds sp }
    | .deliver flags frame => some (t.deliver arch.layout flags frame)
  else none

/-- A thread after `execve`. -/
def Start (t : AltThread) : Prop :=
  t.alt = ⟨0, 0, ssDisable⟩ ∧ t.onStack = false ∧ t.alive = true

/-- What an `SA_ONSTACK` delivery owes to the stack: a frame inside it, nothing written below
it if there is no frame, and no restart at the top under a handler that runs on it. -/
structure Stays (lay : FrameLayout) (t : AltThread) (flags : BitVec 32) (frame : Bytes) : Prop where
  inside : (t.deliver lay flags frame).alive = true → t.alt.sp ≤ (t.deliver lay flags frame).sp ∧
      (t.deliver lay flags frame).sp + lay.size ≤ t.alt.sp + t.alt.size
  untouched : (t.deliver lay flags frame).alive = false →
    ∀ a < t.alt.sp, (t.deliver lay flags frame).mem.bytes a = t.mem.bytes a
  nested : (t.deliver lay flags frame).alive = true → t.onStack = true →
    (t.deliver lay flags frame).sp + lay.size ≤ t.sp

/-- The base a frame is built below. -/
def base (t : AltThread) : Nat :=
  if onAltstack t.sp t.alt.sp t.alt.size then t.sp else wadd t.alt.sp t.alt.size

/-- There is room for the frame above `ss_sp`, or the base is so high or so low that the frame
would not be in user space, or its first byte cannot be written. -/
def Room (arch : Arch) (t : AltThread) : AltAction → Prop
  | .deliver flags _ => t.alt.used flags = true →
    arch.layout.lowest t.alt.sp ≤ t.base ∨ arch.layout.lowest 0x800000000000 ≤ t.base ∨
      t.base < arch.layout.lowest 1 ∨ t.mem.writable (arch.layout.start t.base) = false
  | _ => True

/-! ### Frames stay on the stack -/

variable {lay : FrameLayout} {arch : Arch} {t t' : AltThread} {flags : BitVec 32} {frame : Bytes}
  {a : AltAction}

theorem sigframeBaseSp_eq_base (hu : t.alt.used flags = true) :
    sigframeBaseSp t.alt t.sp flags = t.base := by
  simp only [AltStack.used, and_eq_true, decide_eq_true_eq] at hu
  rw [sigframeBaseSp, if_neg hu.1.1, base]
  cases onAltstack t.sp t.alt.sp t.alt.size <;> simp [hu.1.2, hu.2]

/-- A base above `ss_sp` is not past the end of the stack. -/
theorem base_le (h : t.alt.sp ≤ t.base) : t.base ≤ t.alt.sp + t.alt.size := by
  unfold base at h ⊢
  split
  · next hon =>
    rw [if_pos hon] at h
    simp only [onAltstack, wsub_of_le h, and_eq_true, decide_eq_true_eq] at hon
    omega
  · exact Nat.mod_le _ _

theorem onAltstack_of_holds {alt : AltStack} {sp : Nat} (h : alt.holds sp = true) :
    onAltstack sp alt.sp alt.size = true := by
  simp only [AltStack.holds, and_eq_true, decide_eq_true_eq] at h
  simp only [onAltstack, wsub_of_le h.1, and_eq_true, bne_iff_ne, decide_eq_true_eq]
  omega

/-- The frame that is built, if one is, lies between `ss_sp` and the base. -/
theorem Room.newSp (hroom : t.Room arch (.deliver flags frame)) (hu : t.alt.used flags = true)
    {sp : Nat} (h : arch.layout.newSp t.alt t.sp flags = some sp) :
    t.alt.sp ≤ sp ∧ sp + arch.layout.size ≤ t.base ∨
      t.deliver arch.layout flags frame = { t with alive := false } := by
  have hb := sigframeBaseSp_eq_base hu
  obtain ⟨-, -, hpos, hcanon⟩ := arch.layout.newSp_eq h
  have hend := hb ▸ FrameLayout.newSp_add_size_le h
  rcases hroom hu with hfits | hhigh | hlow | hblocked
  · exact .inl ⟨(FrameLayout.le_newSp_iff h).mpr (hb.symm ▸ hfits), hend⟩
  · exact absurd ((FrameLayout.le_newSp_iff h).mpr (hb.symm ▸ hhigh)) (by omega)
  · exact absurd ((FrameLayout.le_newSp_iff h (x := 1)).mp hpos) (by omega)
  · rw [← hb, ← FrameLayout.newSp_eq_start h] at hblocked
    right
    simp only [deliver, h, UserMem.writeUpTo_blocked frame arch.layout.size_pos hblocked]
    rfl

/-- A delivery the thread survives. -/
theorem deliver_of_alive (h : (t.deliver lay flags frame).alive = true) :
    ∃ sp, lay.newSp t.alt t.sp flags = some sp ∧ t.deliver lay flags frame =
      { t with
        mem := (t.mem.writeUpTo sp lay.size frame).1
        sp := sp
        onStack := t.alt.used flags || (t.onStack && t.alt.holds sp) } := by
  unfold deliver at h ⊢
  split at h
  · simp at h
  · next sp hs =>
    dsimp only at h ⊢
    split at h
    · next hw => exact ⟨sp, hs, by simp [hw]⟩
    · simp at h

/-- With room, its frame lies between `ss_sp` and the base. -/
theorem Room.deliver_of_alive (hroom : t.Room arch (.deliver flags frame))
    (hu : t.alt.used flags = true) (h : (t.deliver arch.layout flags frame).alive = true) :
    ∃ sp, arch.layout.newSp t.alt t.sp flags = some sp ∧ t.alt.sp ≤ sp ∧
      sp + arch.layout.size ≤ t.base ∧ (t.deliver arch.layout flags frame).sp = sp := by
  obtain ⟨sp, hs, hd⟩ := AltThread.deliver_of_alive h
  rcases hroom.newSp hu hs with ⟨hlow, hhigh⟩ | hfail
  · exact ⟨sp, hs, hlow, hhigh, by rw [hd]⟩
  · rw [hfail] at h
    contradiction

/-- **One delivery.** -/
theorem stays_of_room (hroom : t.Room arch (.deliver flags frame)) (hu : t.alt.used flags = true)
    (hon : t.onStack = true → t.alt.holds t.sp = true) : t.Stays arch.layout flags frame := by
  refine ⟨fun ha => ?_, fun _ x hx => ?_, fun ha ho => ?_⟩
  · obtain ⟨sp, hs, hlow, hhigh, hd⟩ := hroom.deliver_of_alive hu ha
    rw [hd]
    exact ⟨hlow, hhigh.trans (base_le (by omega))⟩
  · -- Also a frame that is written in part starts above `ss_sp`.
    unfold deliver
    split
    · rfl
    · next sp hs =>
      rcases hroom.newSp hu hs with ⟨hlow, -⟩ | hfail
      · dsimp only
        split <;> exact if_neg (by omega)
      · rw [deliver, hs] at hfail
        exact congrArg (fun t => t.mem.bytes x) hfail
  · obtain ⟨sp, -, -, hhigh, hd⟩ := hroom.deliver_of_alive hu ha
    have hbase : t.base = t.sp := if_pos (onAltstack_of_holds (hon ho))
    rw [hd, ← hbase]
    exact hhigh

/-- A handler that is recorded to be on the stack is on it, as the code sees it too. -/
def Inv (t : AltThread) : Prop :=
  t.alive = true → t.onStack = true → t.alt.flags &&& ssDisable = 0 ∧ t.alt.holds t.sp = true

/-- A stack in use is not replaced. -/
theorem Inv.sigaltstack (h : t.Inv) (ht : t.alive = true) (ss : Option AltStack) :
    Inv { t with alt := (sysSigaltstack t.alt t.sp ss).2.2 } := by
  intro _ ho
  obtain ⟨hen, hin⟩ := h ht ho
  have hsame : (sysSigaltstack t.alt t.sp ss).2.2 = t.alt := by
    cases ss <;> simp [sysSigaltstack, hen, onAltstack_of_holds hin]
  exact hsame.symm ▸ ⟨hen, hin⟩

theorem Inv.deliver (h : t.Inv) (ht : t.alive = true)
    (hroom : t.Room arch (.deliver flags frame)) : (t.deliver arch.layout flags frame).Inv := by
  intro ha ho
  obtain ⟨sp, hs, hd⟩ := deliver_of_alive ha
  rw [hd] at ho ⊢
  cases hu : t.alt.used flags with
  | true =>
    obtain ⟨sp', hs', hlow, hhigh, -⟩ := hroom.deliver_of_alive hu ha
    obtain rfl := Option.some.inj (hs.symm.trans hs')
    have hbase := base_le (t := t) (by omega)
    have hpos := arch.layout.size_pos
    simp only [AltStack.used, AltStack.holds, and_eq_true, decide_eq_true_eq] at hu ⊢
    exact ⟨hu.1.2, hlow, by omega⟩
  | false =>
    -- Not a delivery onto the stack: the record is kept only if the frame is on it.
    simp only [hu, Bool.false_or, and_eq_true] at ho
    exact ⟨(h ht ho.1).1, ho.2⟩

theorem Inv.step (h : t.Inv) (hroom : t.Room arch a) (hs : t.step arch a = some t') : t'.Inv := by
  obtain ⟨ht, hs⟩ := Option.ite_none_right_eq_some.mp hs
  cases a with
  | sigaltstack ss =>
    cases hs
    exact h.sigaltstack ht ss
  | run =>
    cases hs
    intro _ ho
    simp only [and_eq_true] at ho
    exact ⟨(h ht ho.1).1, ho.2⟩
  | deliver =>
    cases hs
    exact h.deliver ht hroom

/-- **Where there is room, a handler on the alternate stack stays on it**: in every run whose
deliveries find room, and under a handler that runs there already too. -/
theorem altstack_frames_stay (arch : Arch) (t : AltThread)
    (ht : Reachable Start (Room arch) (AltThread.step arch) t) (halive : t.alive = true)
    (flags : BitVec 32) (frame : Bytes) (hu : t.alt.used flags = true)
    (hroom : t.Room arch (.deliver flags frame)) : t.Stays arch.layout flags frame := by
  have hinv : t.Inv := ht.invariant
    (fun s hs _ ho => absurd ho (by simp [hs.2.1])) fun _ _ _ h hr hs => h.step hr hs
  exact stays_of_room hroom hu fun ho => (hinv halive ho).2

/-! ### Runs with too little room -/

/-- A fresh thread with all of memory to write to. -/
def fresh : AltThread := ⟨⟨0, 0, ssDisable⟩, 0x7000, ⟨zeroed, fun _ => true, fun _ => true⟩,
  false, true⟩

/-- The smallest stack that is accepted, then signals. -/
def smallest (n : Nat) : List AltAction :=
  .sigaltstack (some ⟨0x10000, minsigstksz, 0⟩) :: List.replicate n (.deliver saOnstack zeroed)

/-- On the smallest stack that is accepted a frame leaves it, and the next one starts where it did. -/
theorem altstack_frame_escapes :
    (∃ t, Reachable Start (fun _ _ => True) (AltThread.step .aarch64) t ∧ t.alive = true ∧
      t.alt.used saOnstack = true ∧ ¬t.Stays Arch.aarch64.layout saOnstack zeroed) ∧
    (∃ t, Reachable Start (fun _ _ => True) (AltThread.step .aarch64) t ∧ t.onStack = true ∧
      (t.deliver Arch.aarch64.layout saOnstack zeroed).alive = true ∧
      (t.deliver Arch.aarch64.layout saOnstack zeroed).sp = t.sp) ∧
    ∃ t, Reachable Start (fun _ _ => True) (AltThread.step .x8664) t ∧ t.alive = true ∧
      t.alt.used saOnstack = true ∧ ¬t.Stays Arch.x8664.layout saOnstack zeroed := by
  have run : ∀ arch n p,
      ((replay (fun _ _ => True) (AltThread.step arch) fresh (smallest n)).any p) = true →
      ∃ t, Reachable Start (fun _ _ => True) (AltThread.step arch) t ∧ p t = true := by
    intro arch n p h
    exact Reachable.observe ⟨rfl, rfl, rfl⟩ h
  -- A frame that is delivered and starts below `ss_sp`.
  let escapes (arch : Arch) (t : AltThread) : Bool := t.alive && t.alt.used saOnstack &&
    (t.deliver arch.layout saOnstack zeroed).alive &&
    decide ((t.deliver arch.layout saOnstack zeroed).sp < t.alt.sp)
  have not_stays : ∀ arch t, escapes arch t = true → t.alive = true ∧
      t.alt.used saOnstack = true ∧ ¬t.Stays arch.layout saOnstack zeroed := by
    intro arch t h
    simp only [escapes, and_eq_true, decide_eq_true_eq] at h
    exact ⟨h.1.1.1, h.1.1.2, fun hstays => absurd (hstays.inside h.1.2).1 (by omega)⟩
  obtain ⟨t₁, h₁, hp₁⟩ := run .aarch64 0 (escapes .aarch64) (by decide +kernel)
  obtain ⟨t₂, h₂, hp₂⟩ := run .aarch64 1 (fun t => t.onStack &&
    (t.deliver Arch.aarch64.layout saOnstack zeroed).alive &&
    (t.deliver Arch.aarch64.layout saOnstack zeroed).sp == t.sp) (by decide +kernel)
  obtain ⟨t₃, h₃, hp₃⟩ := run .x8664 1 (escapes .x8664) (by decide +kernel)
  simp only [and_eq_true, beq_iff_eq] at hp₂
  exact ⟨⟨t₁, h₁, not_stays _ _ hp₁⟩, ⟨t₂, h₂, hp₂.1.1, hp₂.1.2, hp₂.2⟩, t₃, h₃, not_stays _ _ hp₃⟩

/-- A nested delivery on a stack of 64 KiB. -/
theorem altstack_frames_stay_nested :
    ∃ t, Reachable Start (Room .aarch64) (AltThread.step .aarch64) t ∧ t.onStack = true ∧
      t.Stays Arch.aarch64.layout saOnstack zeroed := by
  let big : AltThread := { fresh with alt := ⟨0x10000, 0x10000, 0⟩ }
  have h₀ : Reachable Start (Room .aarch64) (AltThread.step .aarch64) fresh :=
    .start ⟨rfl, rfl, rfl⟩
  have h₁ : Reachable Start (Room .aarch64) (AltThread.step .aarch64) big :=
    h₀.next (a := .sigaltstack (some ⟨0x10000, 0x10000, 0⟩)) trivial rfl
  have hroom : big.Room .aarch64 (.deliver saOnstack zeroed) := fun _ => .inl (by decide)
  have h₂ := h₁.next hroom rfl
  refine ⟨_, h₂, by decide +kernel, ?_⟩
  exact altstack_frames_stay .aarch64 _ h₂ (by decide +kernel) saOnstack zeroed
    (by decide +kernel) fun _ => .inl (by decide +kernel)

end AltThread

end Leandros.Sched
