import Leandros.Lib.Machine

/-!
# Leandros.Drivers.R8169

**The receive interrupt of the Realtek driver** (`irq_service`, `irq_rearm` of
`drivers/src/r8169_hw.rs`; `isr`, `rx_rearm` of `drivers/src/r8169.rs`; the pass
of the net daemon). The NIC, the MSI handler and the daemon take turns, one
register access each. `IntrStatus` is cleared by writing ones, and an MSI is
sent when `IntrStatus & IntrMask` becomes non-zero.

A read of all ones is taken for a device that is gone, so `isr` leaves an
interrupt with every status bit latched unanswered. In every other run no
receive interrupt is lost (`receive_attended`).
-/

namespace Leandros.Drivers.R8169

/-- `INT_RX_OK`. -/
def intRxOk : BitVec 16 := 0x0001

/-- Where `isr` is: before its read of the status, before it clears the mask,
before the ack, before `kick_from_irq`. -/
inductive Isr
  | idle | entered | read (st : BitVec 16) | masked (st : BitVec 16) | acked
  deriving DecidableEq

/-- Where the net daemon is: in its pass up to `irq_rearm`, before the read of
the status, before the two accesses of `Pending`, before the ack of `Armed`,
before the last look at the ring, told to poll again, done with its pass. -/
inductive Poller
  | draining | unmasked | pending (st : BitVec 16) | remasked (st : BitVec 16)
  | armed (st : BitVec 16) | look | again | asleep
  deriving DecidableEq

structure Nic where
  status : BitVec 16 := 0
  mask : BitVec 16 := 0
  /-- Received frames in the ring. -/
  frames : Nat := 0
  /-- An MSI is on its way. -/
  msi : Bool := false
  isr : Isr := .idle
  /-- `KICKED`. -/
  kicked : Bool := false
  poller : Poller := .draining
  /-- The bits latched since the pass began. -/
  fresh : BitVec 16 := 0
  /-- Those of them that were acknowledged. -/
  acked : BitVec 16 := 0

namespace Nic

/-- The chip's registers change; an MSI goes out on the rising edge. -/
def regs (s : Nic) (status mask : BitVec 16) : Nic :=
  { s with status, mask, msi := s.msi || (s.status &&& s.mask == 0 && status &&& mask != 0) }

@[simp] def setMask (s : Nic) (mask : BitVec 16) : Nic := s.regs s.status mask

@[simp] def ack (s : Nic) (st : BitVec 16) : Nic :=
  { s.regs (s.status &&& ~~~st) s.mask with
    fresh := s.fresh &&& ~~~st, acked := s.acked ||| st &&& s.fresh }

/-- The NIC latches status bits. -/
def latch (s : Nic) (bits : BitVec 16) : Nic :=
  { s.regs (s.status ||| bits) s.mask with fresh := s.fresh ||| bits }

/-- The next access of `isr`: `irq_service`, then `kick_from_irq`. -/
def isrStep (s : Nic) : Nic :=
  match s.isr with
  | .idle => s
  | .entered => { s with isr := if s.status = 0 ∨ s.status = 0xffff then .idle else .read s.status }
  | .read st => { s.setMask 0 with isr := .masked st }
  | .masked st => { s.ack st with isr := .acked }
  | .acked => { s with kicked := true, isr := .idle }

/-- The next access of the daemon: `irq_rearm` with the enabled bits `en`, the
last look of `rx_rearm`, the start of a pass. -/
def pollStep (en : BitVec 16) (s : Nic) : Nic :=
  match s.poller with
  | .draining => { (if en ≠ 0 then s.setMask en else s) with poller := .unmasked }
  | .unmasked => { s with poller :=
      if s.status = 0 ∨ s.status = 0xffff then .look
      else if s.status &&& en ≠ 0 then .pending s.status else .armed s.status }
  | .pending st => { s.setMask 0 with poller := .remasked st }
  | .remasked st => { s.ack st with poller := .again }
  | .armed st => { s.ack st with poller := .look }
  | .look => { s with poller := if s.frames = 0 then .asleep else .again }
  | .again | .asleep => { s with kicked := false, fresh := 0, acked := 0, poller := .draining }

inductive Act
  /-- The NIC latches status bits, or receives a frame. -/
  | latch (bits : BitVec 16)
  | receive
  /-- An MSI arrives. -/
  | deliver
  | isr
  /-- `poll_receive` takes a frame; a pass may end before the ring is empty. -/
  | take
  | poll
  deriving DecidableEq

def step (en : BitVec 16) (s : Nic) : Act → Option Nic
  | .latch bits => some (s.latch bits)
  | .receive => some { s.latch intRxOk with frames := s.frames + 1 }
  | .deliver =>
    if s.msi ∧ s.isr = .idle then some { s with msi := false, isr := .entered } else none
  | .isr => some s.isrStep
  | .take =>
    if s.poller = .draining ∧ 0 < s.frames then some { s with frames := s.frames - 1 } else none
  | .poll => some (s.pollStep en)

/-- `isr` does not read all ones. -/
abbrev ok (s : Nic) (a : Act) : Prop := a = .isr → s.isr = .entered → s.status ≠ 0xffff

/-- Someone will look at the ring: an MSI or a wake is outstanding, or the
daemon is before its last look or was told to poll again. -/
abbrev Attended (s : Nic) : Prop :=
  s.msi = true ∨ s.isr ≠ .idle ∨ s.kicked = true ∨ s.poller ≠ .asleep

/-- A pass will start. -/
@[simp] abbrev PassDue (s : Nic) : Prop := s.isr = .acked ∨ s.kicked = true ∨ s.poller = .again

/-! ### What holds between any two accesses -/

structure Inv (en : BitVec 16) (s : Nic) : Prop where
  /-- A high line has its MSI, or `isr` has not cleared the mask yet. -/
  line : s.status &&& s.mask ≠ 0 → s.msi = true ∨ s.isr = .entered ∨ ∃ st, s.isr = .read st
  /-- Once a pass has unmasked, the mask is clear on the way to a wake only. -/
  unmasked : s.mask = en ∨ (∃ st, s.isr = .masked st) ∨ s.isr = .acked ∨ s.kicked = true ∨
    s.poller = .draining ∨ (∃ st, s.poller = .remasked st) ∨ s.poller = .again
  frames : s.poller = .asleep → 0 < s.frames →
    s.status &&& intRxOk ≠ 0 ∨ s.isr = .acked ∨ s.kicked = true
  acked : s.acked &&& en ≠ 0 → s.PassDue
  outside : ∀ st, s.poller = .armed st → st &&& en = 0

variable {en : BitVec 16} {s s' : Nic}

/-- Whatever is written to the registers, a line that is high afterwards was high
before or has risen. -/
theorem Inv.regs (h : Inv en s) {st m : BitVec 16} (hl : st &&& m ≠ 0) :
    (s.regs st m).msi = true ∨ s.isr = .entered ∨ ∃ st, s.isr = .read st := by
  by_cases h0 : s.status &&& s.mask = 0
  · exact .inl (by simp_all [Nic.regs])
  · exact (h.line h0).imp_left fun hm => by simp [Nic.regs, hm]

theorem Inv.latch (h : Inv en s) (bits : BitVec 16) : Inv en (s.latch bits) := by
  refine { h with line := h.regs, frames := fun hp hf => ?_ }
  refine (h.frames hp hf).imp_left fun hr h0 => hr ?_
  simp only [Nic.latch, Nic.regs] at h0
  grind

/-- One step of the interrupt handler, at each of its places. -/
theorem Inv.isrStep (h : Inv en s) (hok : s.ok .isr) : Inv en s.isrStep := by
  unfold Nic.isrStep
  cases hi : s.isr with
  | idle => exact h
  | entered =>
    -- A status of zero leaves the line low; all ones is excluded.
    have hread : s.status &&& s.mask ≠ 0 → ¬(s.status = 0 ∨ s.status = 0xffff) := by
      rintro hl (h0 | h1)
      · exact hl (by simp [h0])
      · exact hok rfl hi h1
    have hmask := h.unmasked
    have hframes := h.frames
    have hacked := h.acked
    simp only [hi, PassDue, reduceCtorEq, exists_false, false_or] at hmask hframes hacked
    exact {
      line := fun hl => .inr (.inr ⟨s.status, if_neg (hread hl)⟩)
      unmasked := hmask.imp_right fun hw => .inr (.inr hw)
      frames := fun hp hf => (hframes hp hf).imp_right .inr
      acked := fun ha => .inr (hacked ha)
      outside := h.outside }
  | read st =>
    have hframes := h.frames
    have hacked := h.acked
    simp only [hi, PassDue, reduceCtorEq, false_or] at hframes hacked
    exact {
      line := fun hl => absurd BitVec.and_zero hl
      unmasked := .inr (.inl ⟨st, rfl⟩)
      frames := fun hp hf => (hframes hp hf).imp_right .inr
      acked := fun ha => .inr (hacked ha)
      outside := h.outside }
  | masked st =>
    have hrise {st m : BitVec 16} (hl : st &&& m ≠ 0) : (s.regs st m).msi = true :=
      (h.regs hl).resolve_right (by simp [hi])
    exact {
      line := fun hl => .inl (hrise hl)
      unmasked := .inr (.inr (.inl rfl))
      frames := fun _ _ => .inr (.inl rfl)
      acked := fun _ => .inl rfl
      outside := h.outside }
  | acked =>
    have hmsi (hl : s.status &&& s.mask ≠ 0) : s.msi = true :=
      (h.line hl).resolve_right (by simp [hi])
    exact {
      line := fun hl => .inl (hmsi hl)
      unmasked := .inr (.inr (.inr (.inl rfl)))
      frames := fun _ _ => .inr (.inr rfl)
      acked := fun _ => .inr (.inl rfl)
      outside := h.outside }

/-- A pass that is not due through the daemon itself. -/
theorem Inv.due (h : Inv en s) (hp : s.poller ≠ .again) (ha : s.acked &&& en ≠ 0) :
    s.isr = .acked ∨ s.kicked = true :=
  (h.acked ha).imp_right fun hw => hw.resolve_right hp

/-- One step of the poll pass, at each of its places. -/
theorem Inv.pollStep (h : Inv en s) (hen : en &&& intRxOk ≠ 0) : Inv en (s.pollStep en) := by
  -- The mask between the unmasking and the last look of a pass.
  have hopen (hp : s.poller = .unmasked ∨ s.poller = .look ∨ ∃ st, s.poller = .armed st)
      {p : Poller} : s.mask = en ∨ (∃ st, s.isr = .masked st) ∨ s.isr = .acked ∨ s.kicked = true ∨
        p = .draining ∨ (∃ st, p = .remasked st) ∨ p = .again := by
    rcases h.unmasked with hm | hm | hm | hm | hm
    · exact .inl hm
    · exact .inr (.inl hm)
    · exact .inr (.inr (.inl hm))
    · exact .inr (.inr (.inr (.inl hm)))
    · rcases hp with hp | hp | ⟨st, hp⟩ <;> simp [hp] at hm
  unfold Nic.pollStep
  cases hp : s.poller with
  | draining =>
    have hen0 : en ≠ 0 := by
      rintro rfl
      simp at hen
    simp only [if_pos hen0]
    exact {
      line := h.regs
      unmasked := .inl rfl
      frames := nofun
      acked := fun ha => (h.due (by simp [hp]) ha).imp_right .inl
      outside := nofun }
  | unmasked =>
    refine {
      line := h.line
      unmasked := hopen (.inl hp)
      frames := fun ha => ?_
      acked := fun ha => (h.due (by simp [hp]) ha).imp_right .inl
      outside := fun st hst => ?_ }
    · -- none of the three places is the last one of a pass
      dsimp only at ha
      split at ha
      · contradiction
      · split at ha <;> contradiction
    · dsimp only at hst
      split at hst
      · contradiction
      split at hst
      · contradiction
      · next hout =>
        obtain rfl := Poller.armed.inj hst
        exact not_not.mp hout
  | look =>
    refine {
      line := h.line
      unmasked := hopen (.inr (.inl hp))
      frames := fun ha hf => ?_
      acked := fun ha => (h.due (by simp [hp]) ha).imp_right .inl
      outside := fun st hst => ?_ }
    · -- the daemon goes to sleep on an empty ring only
      dsimp only at ha hf
      rw [if_neg (by omega)] at ha
      contradiction
    · dsimp only at hst
      split at hst <;> contradiction
  | pending st =>
    exact {
      line := fun hl => absurd BitVec.and_zero hl
      unmasked := .inr (.inr (.inr (.inr (.inr (.inl ⟨st, rfl⟩)))))
      frames := nofun
      acked := fun ha => (h.due (by simp [hp]) ha).imp_right .inl
      outside := nofun }
  | remasked st =>
    exact {
      line := h.regs
      unmasked := .inr (.inr (.inr (.inr (.inr (.inr rfl)))))
      frames := nofun
      acked := fun _ => .inr (.inr rfl)
      outside := nofun }
  | armed st =>
    refine {
      line := h.regs
      unmasked := hopen (.inr (.inr ⟨st, hp⟩))
      frames := nofun
      acked := fun ha => (h.due (by simp [hp]) fun h0 => ha ?_).imp_right .inl
      outside := nofun }
    -- what is acknowledged here is outside the mask
    have hout := h.outside st hp
    show (s.acked ||| st &&& s.fresh) &&& en = 0
    rw [BitVec.and_or_distrib_right, h0, BitVec.and_assoc, BitVec.and_comm s.fresh, ← BitVec.and_assoc,
      hout]
    simp
  | again | asleep =>
    exact {
      line := h.line
      unmasked := .inr (.inr (.inr (.inr (.inl rfl))))
      frames := nofun
      acked := fun ha => absurd BitVec.zero_and ha
      outside := nofun }

/-- Every step keeps the line, the mask and the frames accounted for. -/
theorem Inv.step (hen : en &&& intRxOk ≠ 0) {a : Act} (h : Inv en s) (hok : s.ok a)
    (hs : s.step en a = some s') : Inv en s' := by
  cases a with
  | latch bits =>
    cases hs
    exact h.latch bits
  | receive =>
    cases hs
    -- the receive bit is now set in the status register, so the frame is announced there
    refine { h.latch intRxOk with frames := fun _ _ => .inl ?_ }
    simp only [Nic.latch, Nic.regs]
    intro h0
    have := congrArg (BitVec.getLsbD · 0) h0
    simp [intRxOk] at this
  | deliver =>
    obtain ⟨⟨-, hi⟩, rfl⟩ := guard_eq_some hs
    have hmask := h.unmasked
    have hframes := h.frames
    have hacked := h.acked
    -- before the delivery nothing was in the handler, which leaves the other disjuncts
    simp only [hi, PassDue, reduceCtorEq, exists_false, false_or] at hmask hframes hacked
    exact {
      line := fun _ => .inr (.inl rfl)
      unmasked := hmask.imp_right fun hw => .inr (.inr hw)
      frames := fun hp hf => (hframes hp hf).imp_right .inr
      acked := fun ha => .inr (hacked ha)
      outside := h.outside }
  | isr =>
    cases hs
    exact h.isrStep hok
  | take =>
    obtain ⟨⟨hp, -⟩, rfl⟩ := guard_eq_some hs
    exact { h with frames := fun ha => by simp [hp] at ha }
  | poll =>
    cases hs
    exact h.pollStep hen

/-- **No receive interrupt is lost.** Unless `isr` reads all ones, a frame in the
ring or an enabled status bit always has someone on the way to it, and an enabled
bit that was latched after the last pass began and acknowledged has another pass
coming. -/
theorem receive_attended {en : BitVec 16} (hen : en &&& intRxOk ≠ 0) {s : Nic}
    (h : Reachable (Eq {}) ok (step en) s) :
    (0 < s.frames ∨ s.status &&& en ≠ 0 → s.Attended) ∧ (s.acked &&& en ≠ 0 → s.PassDue) := by
  have hinv : Inv en s := by
    refine h.invariant ?_ fun s a s' hi hok hs => hi.step hen hok hs
    rintro _ rfl
    constructor <;> simp
  refine ⟨fun hw => ?_, hinv.acked⟩
  by_contra ha
  simp only [Attended, not_or, not_not] at ha
  obtain ⟨hm, hi, hk, hp⟩ := ha
  -- The daemon sleeps with the mask open and the line low.
  have hmask : s.mask = en := by simpa [hi, hk, hp] using hinv.unmasked
  have hline : s.status &&& en = 0 := by
    by_contra hl
    simpa [hm, hi] using hinv.line (hmask ▸ hl)
  rcases hw with hf | hst
  · have hrx : s.status &&& intRxOk ≠ 0 := by simpa [hi, hk] using hinv.frames hp hf
    unfold intRxOk at *
    grind
  · exact hst hline

theorem receive_attended_run : ∃ s : Nic, (0 < s.frames ∧ s.poller = .asleep) ∧ s.Attended := by
  have hrun : ((replay ok (step intRxOk) {} [.poll, .poll, .poll, .receive]).any fun s =>
      0 < s.frames ∧ s.poller = .asleep) = true := by decide +kernel
  obtain ⟨s, hr, hobs⟩ := Reachable.observe rfl hrun
  exact ⟨s, of_decide_eq_true hobs,
    (receive_attended (by decide) hr).1 (.inl (of_decide_eq_true hobs).1)⟩

/-- With every status bit latched `isr` leaves the interrupt; and a bit outside the
mask that is latched during a pass is acknowledged with no further pass. -/
theorem all_ones_unattended :
    (∃ s, Reachable (Eq {}) (fun _ _ => True) (step intRxOk) s ∧
      s.status &&& intRxOk ≠ 0 ∧ ¬s.Attended) ∧
    ∃ s, Reachable (Eq {}) (fun _ _ => True) (step intRxOk) s ∧
      s.acked ≠ 0 ∧ ¬s.Attended := by
  have hones : ((replay (fun _ _ => True) (step intRxOk) {}
      [.poll, .poll, .poll, .latch 0xffff, .deliver, .isr]).any fun s =>
        s.status &&& intRxOk ≠ 0 ∧ ¬s.Attended) = true := by decide +kernel
  have hacked : ((replay (fun _ _ => True) (step intRxOk) {}
      [.latch 4, .poll, .poll, .poll, .poll]).any fun s => s.acked ≠ 0 ∧ ¬s.Attended) = true := by
    decide +kernel
  obtain ⟨s, hr, hobs⟩ := Reachable.observe rfl hones
  obtain ⟨t, ht, hobs'⟩ := Reachable.observe rfl hacked
  exact ⟨⟨s, hr, of_decide_eq_true hobs⟩, t, ht, of_decide_eq_true hobs'⟩

end Nic

end Leandros.Drivers.R8169
