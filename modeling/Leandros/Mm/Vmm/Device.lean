import Leandros.Mm.Vmm.Layout

/-!
# Leandros.Mm.Vmm.Device

**`mprotect` over device memory.** `map_device` records the cache attributes of a
device buffer (`NOCACHE`, `MMIO`, `WRITECOMBINE`) in the VMA's flags and in every
entry it installs. `mprotect` makes the new page flags from the `PROT_*` bits alone,
so the attributes are gone from the VMA, from the page tables and, because
`clone_as` takes a child's entries from the VMA, from every later child.

One call is described by what it does to the VMA (`run_vma`: `split_at` never cuts
a device VMA, so the slot keeps its place and its ends) and by what it writes into
the page tables (`KeepsAttrs.run`). `device_attrs_kept` puts both together for any
number of calls: the attributes survive **exactly if** there were none or every
call was refused or named no page. A range whose end overflows is refused; a
length that wraps to no page changes nothing. `mprotect_drops_writecombine` is the
single call that loses one.
-/

namespace Leandros.Mm.Vmm

/-- `NOCACHE`, `MMIO` and `WRITECOMBINE`. -/
def PageFlags.attrs (fl : PageFlags) : Bool × Bool × Bool := (fl.nocache, fl.mmio, fl.writecombine)

/-- One `mprotect`. -/
structure ProtectCall where
  env : Env
  addr : Nat
  len : Nat
  prot : Prot

/-- The call changes no VMA: `PROT_WRITE` and `PROT_EXEC` together and a range that
overflows are refused, and a length that rounds to no page (it is 0, or the sum
wraps) leaves nothing in range. -/
def ProtectCall.refused (c : ProtectCall) : Bool :=
  c.prot.write && c.prot.exec ||
    (checkedAdd (alignDown c.addr pageSize) (alignUp c.len pageSize)).isNone ||
    decide (alignUp c.len pageSize = 0)

/-- The range asked for wholly contains the pages `[start, stop)`. -/
def ProtectCall.Covers (c : ProtectCall) (start stop : Nat) : Prop :=
  c.len < usizeLimit ∧ c.addr ≤ start ∧ stop ≤ c.addr + c.len

def ProtectCall.run (s : AddressSpace × Vm) (c : ProtectCall) : AddressSpace × Vm :=
  (s.1.mprotect c.env s.2 c.addr c.len c.prot).2

namespace AddressSpace

variable {as : AddressSpace} {i : Nat} {r : VmaRegion}

/-- A split leaves a device VMA, and the page tables, alone. -/
theorem splitAt_device (h : as.vma i = some r) (hd : r.fileCap = .device) (vm : Vm) (b : Nat) :
    (as.splitAt vm b).2.1.vma i = some r ∧ (as.splitAt vm b).2.1.root = as.root ∧
      (as.splitAt vm b).2.2.pt = vm.pt := by
  rw [splitAt]
  cases hl : as.locate fun r =>
      decide (r.start < alignDown b pageSize) && decide (alignDown b pageSize < r.stop) with
  | none => exact ⟨h, rfl, rfl⟩
  | some found =>
    obtain ⟨j, q⟩ := found
    have hj := (locate_eq_some hl).1
    dsimp only
    split
    · exact ⟨h, rfl, rfl⟩
    · next hq =>
      -- a device mapping is not split, so the slot is another one
      have hij : i ≠ j := by
        rintro rfl
        cases h.symm.trans hj
        exact hq hd
      set left := splitLeft (toLazy q) _ _
      obtain ⟨hempty, hlt, hv, hroot, -⟩ := (as.put j left).reserve_spec
      have hi : (as.put j left).vma i = some r := by rw [vma_put (lt_of_vma hj), if_neg hij, h]
      refine ⟨?_, hroot, ?_⟩
      · rw [vma_put hlt, if_neg, hv, hi]
        rintro rfl
        cases hempty.symm.trans hi
      · split <;> rfl

/-- The entries `mprotect` writes have no cache attribute. -/
theorem protectPtes_attrs {env : Env} {root : Nat} {vm : Vm} {prot : Prot} {e : Nat × Option Pte}
    {p : Pte} (he : e ∈ protectPtes env root vm prot r) (hp : e.2 = some p) :
    p.flags.attrs = (false, false, false) := by
  -- what is cleared has no attributes to lose
  have hclear : ∀ e ∈ clearPtes r, e.2 = none := by
    intro e he
    rw [clearPtes] at he
    split at he
    all_goals
      obtain ⟨x, -, rfl⟩ := List.mem_map.mp he
      rfl
  rw [protectPtes] at he
  split at he
  · split at he
    · cases (hclear e he).symm.trans hp
    · cases he
  split at he
  · obtain ⟨x, -, rfl⟩ := List.mem_map.mp he
    cases hp
    simp only [protectFlags, VmaRegion.installFlags]
    split
    · rfl
    · split <;> rfl
  · split at he
    · obtain ⟨x, -, rfl⟩ := List.mem_map.mp he
      cases hp
      rfl
    · cases he

/-- The splits before `mprotect`'s loop leave a device VMA, and the page tables, alone. -/
theorem splitTwo_device (h : as.vma i = some r) (hal : aliased r = true) (vm : Vm)
    (addr stop : Nat) :
    (as.splitTwo vm addr stop).1.vma i = some r ∧ (as.splitTwo vm addr stop).1.root = as.root ∧
      (as.splitTwo vm addr stop).2.pt = vm.pt := by
  have hd : r.fileCap = .device := by
    simp only [aliased, Bool.and_eq_true, decide_eq_true_eq] at hal
    exact hal.2
  obtain ⟨h1, hroot₁, hpt₁⟩ := splitAt_device h hd vm addr
  obtain ⟨h2, hroot₂, hpt₂⟩ := splitAt_device h1 hd (as.splitAt vm addr).2.2 stop
  exact ⟨h2, hroot₂.trans hroot₁, hpt₂.trans hpt₁⟩

/-- A refused call gets to the splits at most: no VMA is in its range. -/
theorem run_refused {c : ProtectCall} (hc : c.refused = true) (s : AddressSpace × Vm) :
    c.run s = s ∨ ∃ addr, c.run s = (s.1.splitTwo s.2 addr addr).1.protectInside c.env
      (s.1.splitTwo s.2 addr addr).2 addr addr c.prot := by
  rw [ProtectCall.run, mprotect]
  split
  · exact .inl rfl
  · next hno =>
    simp only [ProtectCall.refused, hno, Bool.false_or, Bool.or_eq_true, Option.isNone_iff_eq_none,
      decide_eq_true_eq] at hc
    dsimp only
    rcases hc with hnone | hzero
    · rw [hnone]
      exact .inl rfl
    · rw [hzero]
      cases hadd : checkedAdd (alignDown c.addr pageSize) 0 with
      | none => exact .inl rfl
      | some stop =>
        obtain ⟨hsum, -⟩ := checkedAdd_eq_some.mp hadd
        rw [Nat.add_zero] at hsum
        exact .inr ⟨alignDown c.addr pageSize, by rw [← hsum]⟩

/-- Nothing is inside an empty range. -/
theorem inside_empty (addr : Nat) (r : VmaRegion) : inside addr addr r = false := by
  simp only [inside, Bool.and_eq_false_iff, decide_eq_false_iff_not]
  omega

/-- A call that is not refused reaches a page-aligned VMA that its range contains. -/
theorem inside_of_covers {c : ProtectCall} {start stop : Nat} (hc : c.Covers start stop)
    (hstop : pageSize ∣ stop) (hno : ¬c.refused = true) :
    (c.prot.write && c.prot.exec) = false ∧ ∃ e,
      checkedAdd (alignDown c.addr pageSize) (alignUp c.len pageSize) = some e ∧
        alignDown c.addr pageSize ≤ start ∧ stop ≤ e := by
  obtain ⟨hlen, haddr, hend⟩ := hc
  simp only [ProtectCall.refused, Bool.or_eq_true, not_or, Bool.not_eq_true,
    Option.isNone_eq_false_iff, Option.isSome_iff_exists, decide_eq_true_eq] at hno
  obtain ⟨⟨hprot, e, he⟩, hpos⟩ := hno
  refine ⟨hprot, e, he, (alignDown_le _ _).trans haddr, ?_⟩
  -- A sum that wraps would leave less than a page.
  have hsum : c.len + (pageSize - 1) < usizeLimit := by
    by_contra hwrap
    refine hpos ?_
    have hmod : (c.len + (pageSize - 1)) % usizeLimit = c.len + (pageSize - 1) - usizeLimit := by
      unfold pageSize usizeLimit at *
      omega
    rw [alignUp, wadd, hmod, alignDown, Nat.div_eq_of_lt (by unfold pageSize usizeLimit at *; omega),
      Nat.zero_mul]
  obtain ⟨rfl, -⟩ := checkedAdd_eq_some.mp he
  have hup : alignUp c.len pageSize = alignDown (c.len + (pageSize - 1)) pageSize := by
    rw [alignUp, wadd_of_lt hsum]
  rw [hup]
  unfold alignDown pageSize at *
  omega

/-- What the calls keep of the device VMA in slot `i`, first mapped with `flags`. -/
structure KeepsAttrs (flags : PageFlags) (i : Nat) (s₀ s : AddressSpace × Vm) : Prop where
  root : s.1.root = s₀.1.root
  vma : ∃ r, s.1.vma i = some r ∧ aliased r = true ∧ r.flags.attrs = flags.attrs
  pt : ∀ va, (∀ p, s₀.2.pt s₀.1.root va = some p → p.flags.attrs = flags.attrs) →
    ∀ p, s.2.pt s₀.1.root va = some p → p.flags.attrs = flags.attrs

section

variable {flags : PageFlags} {s₀ s : AddressSpace × Vm} (h : KeepsAttrs flags i s₀ s)
include h

theorem KeepsAttrs.splitTwo (addr stop : Nat) :
    KeepsAttrs flags i s₀ (s.1.splitTwo s.2 addr stop) := by
  obtain ⟨r, hr, hal, hat⟩ := h.vma
  obtain ⟨hvma, hroot, hpt⟩ := splitTwo_device hr hal s.2 addr stop
  exact ⟨hroot.trans h.root, ⟨r, hvma, hal, hat⟩, fun va hva => by rw [hpt]; exact h.pt va hva⟩

/-- The loop of `mprotect` keeps the attributes if there are none to lose, or no VMA
in range. -/
theorem KeepsAttrs.protectInside (env : Env) (addr stop : Nat) (prot : Prot)
    (h0 : flags.attrs = (false, false, false) ∨ ∀ r, inside addr stop r = false) :
    KeepsAttrs flags i s₀ (s.1.protectInside env s.2 addr stop prot) := by
  obtain ⟨r, hr, hal, hat⟩ := h.vma
  refine ⟨h.root, ⟨protect addr stop prot r, (vma_mapSlots ..).trans (by rw [hr]; rfl), ?_⟩,
    fun va hva => ?_⟩
  · rw [protect]
    split
    · next hin => exact ⟨hal, (h0.resolve_right fun hno => by simp [hno] at hin).symm⟩
    · exact ⟨hal, hat⟩
  -- The written entries go in one by one.
  have hedit : ∀ (l : List (Nat × Option Pte)) (pt : PageTables),
      (∀ e ∈ l, ∀ p, e.2 = some p → p.flags.attrs = flags.attrs) →
      (∀ p, pt s₀.1.root va = some p → p.flags.attrs = flags.attrs) →
      ∀ p, pt.edit s.1.root l s₀.1.root va = some p → p.flags.attrs = flags.attrs := by
    intro l
    induction l with
    | nil => exact fun pt _ hpt => hpt
    | cons e l ih =>
      refine fun pt hl hpt => ih _ (fun x hx => hl x (.tail _ hx)) fun p hp => ?_
      simp only [PageTables.set] at hp
      split at hp
      · exact hl e (.head _) p hp
      · exact hpt p hp
  refine hedit _ _ (fun e he p hp => ?_) (h.pt va hva)
  obtain ⟨q, hq, hqe⟩ := List.mem_flatMap.mp he
  have hin := List.of_mem_filter hq
  rw [protectPtes_attrs hqe hp, h0.resolve_right fun hno => by simp [hno] at hin]

theorem KeepsAttrs.run (c : ProtectCall)
    (hc : flags.attrs = (false, false, false) ∨ c.refused = true) :
    KeepsAttrs flags i s₀ (c.run s) := by
  rcases hc with h0 | href
  · rw [ProtectCall.run, mprotect]
    split
    · exact h
    dsimp only
    cases checkedAdd (alignDown c.addr pageSize) (alignUp c.len pageSize) with
    | none => exact h
    | some stop => exact (h.splitTwo _ stop).protectInside c.env _ stop c.prot (.inl h0)
  · rcases run_refused href s with heq | ⟨addr, heq⟩
    · rw [heq]
      exact h
    · rw [heq]
      exact (h.splitTwo addr addr).protectInside c.env addr addr c.prot (.inr (inside_empty addr))

end

/-- A covering call that is not refused takes the attributes from the VMA; the VMA
keeps its slot and its ends in any case. -/
theorem run_vma {s : AddressSpace × Vm} {c : ProtectCall} (h : s.1.vma i = some r)
    (hal : aliased r = true) (hc : c.Covers r.start r.stop) (hstop : pageSize ∣ r.stop)
    (hlt : r.start < r.stop) :
    ∃ r', (c.run s).1.vma i = some r' ∧ aliased r' = true ∧ r'.start = r.start ∧
      r'.stop = r.stop ∧ r'.flags.attrs =
        if c.refused = true then r.flags.attrs else (false, false, false) := by
  split
  · next href =>
    -- a refused call changes nothing, or splits at one address and protects nothing
    rcases run_refused href s with heq | ⟨addr, heq⟩
    · exact ⟨r, by rw [heq]; exact h, hal, rfl, rfl, rfl⟩
    · refine ⟨r, ?_, hal, rfl, rfl, rfl⟩
      have hv := (splitTwo_device h hal s.2 addr addr).1
      rw [heq]
      refine (vma_mapSlots ..).trans ?_
      rw [hv, Option.bind_some, protect, inside_empty, if_neg Bool.false_ne_true]
  · next hno =>
    -- the range takes in the whole region
    obtain ⟨hprot, e, he, h1, h2⟩ := inside_of_covers hc hstop hno
    have hv := (splitTwo_device h hal s.2 (alignDown c.addr pageSize) e).1
    have hin : inside (alignDown c.addr pageSize) e r = true := by
      simp only [inside, Bool.and_eq_true, decide_eq_true_eq]
      exact ⟨⟨h1, h2⟩, hlt⟩
    refine ⟨{ r with prot := c.prot, flags := flagsOf c.prot }, ?_, hal, rfl, rfl, rfl⟩
    rw [ProtectCall.run, mprotect, if_neg (by simp [hprot])]
    dsimp only
    rw [he]
    refine (vma_mapSlots ..).trans ?_
    rw [hv, Option.bind_some, protect, if_pos hin]

/-- After any covering calls the VMA has its attributes, or none if one call got through. -/
theorem runs_vma (calls : List ProtectCall) : ∀ {s : AddressSpace × Vm} {r : VmaRegion},
    s.1.vma i = some r → aliased r = true → (∀ c ∈ calls, c.Covers r.start r.stop) →
      pageSize ∣ r.stop → r.start < r.stop →
    ∃ r', (calls.foldl ProtectCall.run s).1.vma i = some r' ∧ r'.flags.attrs =
      if calls.all (·.refused) = true then r.flags.attrs else (false, false, false) := by
  induction calls with
  | nil => exact fun h _ _ _ _ => ⟨_, h, rfl⟩
  | cons c calls ih =>
    intro s r h hal hcov hstop hlt
    obtain ⟨r₁, h1, hal₁, hs₁, he₁, hat₁⟩ := run_vma h hal (hcov c (.head _)) hstop hlt
    obtain ⟨r₂, h2, hat₂⟩ := ih h1 hal₁ (fun d hd => by rw [hs₁, he₁]; exact hcov d (.tail _ hd))
      (he₁ ▸ hstop) (by omega)
    refine ⟨r₂, h2, hat₂.trans ?_⟩
    rw [hat₁, List.all_cons]
    cases c.refused
    · simp
    · simp

/-- The VMA that `map_device` recorded in slot `i` and the entries of the pages that had
the mapped attributes have them in `s`, and so do the VMA and the entries that `clone_as`
makes for it in a child. -/
def AttrsKept (flags : PageFlags) (i : Nat) (s₀ s : AddressSpace × Vm) : Prop :=
  (∀ va, (∀ p, s₀.2.pt s₀.1.root va = some p → p.flags.attrs = flags.attrs) →
    ∀ p, s.2.pt s₀.1.root va = some p → p.flags.attrs = flags.attrs) ∧
  ∃ r, s.1.vma i = some r ∧ r.flags.attrs = flags.attrs ∧ ∀ env newRoot,
    (s.1.cloneAs env s.2 newRoot).2.1.vma i = some (forkChild r) ∧
    (forkChild r).flags.attrs = flags.attrs ∧
    ∃ ptes, (∀ vm, forkMemory env s.1.root newRoot vm r = vm.edit newRoot ptes) ∧
      ∀ e ∈ ptes, ∀ p, e.2 = some p → p.flags.attrs = flags.attrs

theorem KeepsAttrs.kept {flags : PageFlags} {s₀ s : AddressSpace × Vm}
    (hs : KeepsAttrs flags i s₀ s) : AttrsKept flags i s₀ s := by
  obtain ⟨r, hr, hal, hat⟩ := hs.vma
  refine ⟨hs.pt, r, hr, hat, fun env newRoot => ⟨?_, by rw [forkChild, if_pos hal]; exact hat, _,
    fun vm => by rw [forkMemory, if_pos hal], fun e he p hp => ?_⟩⟩
  · exact (vma_mapSlots ..).trans (by rw [hr]; rfl)
  · obtain ⟨x, -, rfl⟩ := List.mem_map.mp he
    cases hp
    exact hat

/-- **When `mprotect` keeps the cache attributes of device memory.** After any calls that
contain the VMA, the VMA, the entries of its pages and a later child have the attributes it
was mapped with if and only if it was mapped with none, or every call was refused. -/
theorem device_attrs_kept (as : AddressSpace) (vm : Vm) (start stop phys : Nat)
    (flags : PageFlags) (h : as.vma i = some (deviceRegion start stop phys flags))
    (hstop : pageSize ∣ stop) (hlt : start < stop)
    (calls : List ProtectCall) (hcov : ∀ c ∈ calls, c.Covers start stop) :
    AttrsKept flags i (as, vm) (calls.foldl ProtectCall.run (as, vm)) ↔
      flags.attrs = (false, false, false) ∨ ∀ c ∈ calls, c.refused = true := by
  constructor
  · -- One call that gets through leaves the VMA without attributes.
    rintro ⟨-, r, hr, hat, -⟩
    obtain ⟨r', hr', hat'⟩ := runs_vma (s := (as, vm)) calls h rfl hcov hstop hlt
    cases hr.symm.trans hr'
    by_cases hall : calls.all (·.refused) = true
    · exact .inr (List.all_eq_true.mp hall)
    · rw [if_neg hall] at hat'
      exact .inl (hat.symm.trans hat')
  · intro hok
    have hrun : ∀ (l : List ProtectCall) s, (∀ c ∈ l, c ∈ calls) →
        KeepsAttrs flags i (as, vm) s →
          KeepsAttrs flags i (as, vm) (l.foldl ProtectCall.run s) := by
      intro l
      induction l with
      | nil => exact fun s _ hs => hs
      | cons c l ih =>
        exact fun s hl hs => ih _ (fun x hx => hl x (.tail _ hx))
          (hs.run c (hok.imp_right fun hall => hall c (hl c (.head _))))
    exact (hrun calls (as, vm) (fun _ hc => hc) ⟨rfl, ⟨_, h, rfl, rfl⟩, fun _ hva => hva⟩).kept

/-- A page of device memory with the given flags, in an address space of its own. -/
def onePage (flags : PageFlags) : AddressSpace × Vm :=
  (heapAt2000.1.mapDevice (frameEnv 0) heapAt2000.2 0x10000 0xfd000000 0x1000 flags).2

def onePageCall (prot : Prot) : ProtectCall := ⟨frameEnv 0, 0x10000, 0x1000, prot⟩

/-- A write-combining page keeps its attribute over a refused `PROT_WRITE | PROT_EXEC` and
over a range that overflows, and loses it to `PROT_READ`. -/
theorem device_attrs_kept_writecombine :
    let flags : PageFlags := { writable := true, writecombine := true }
    let refused := [onePageCall ⟨true, true, true⟩, ⟨frameEnv 0, 0x10000, 2 ^ 64 - 4096, ⟨true, false, false⟩⟩]
    AttrsKept flags 0 (onePage flags) (refused.foldl ProtectCall.run (onePage flags)) ∧
      ¬AttrsKept flags 0 (onePage flags)
        ((refused ++ [onePageCall ⟨true, false, false⟩]).foldl ProtectCall.run (onePage flags)) := by
  intro flags refused
  have h : (onePage flags).1.vma 0 = some (deviceRegion 0x10000 0x11000 0xfd000000 flags) := rfl
  have hcov : ∀ c ∈ refused ++ [onePageCall ⟨true, false, false⟩], c.Covers 0x10000 0x11000 := by
    simp [refused, onePageCall, ProtectCall.Covers, usizeLimit]
  have hiff := fun calls hc => device_attrs_kept (onePage flags).1 (onePage flags).2 _ _ _ _ h
    (by decide) (by decide) calls hc
  refine ⟨(hiff refused fun c hc => hcov c (List.mem_append_left _ hc)).mpr (.inr ?_), fun hk => ?_⟩
  · decide
  · rcases (hiff _ hcov).mp hk with h0 | hall
    · cases h0
    · exact absurd (hall (onePageCall ⟨true, false, false⟩) (by simp)) (by decide)

/-- **`mprotect` drops `WRITECOMBINE`**: from the page table and the VMA at once, and from
the page table of a later child. -/
theorem mprotect_drops_writecombine :
    let s₀ := onePage { writable := true, writecombine := true }
    let s := (onePageCall ⟨true, true, false⟩).run s₀
    (s₀.2.pt 1 0x10000).map (·.flags.writecombine) = some true ∧
      (s₀.1.vma 0).map (·.flags.writecombine) = some true ∧
      (s.2.pt 1 0x10000).map (·.flags.writecombine) = some false ∧
      (s.1.vma 0).map (·.flags.writecombine) = some false ∧
      ((s.1.cloneAs (frameEnv 0) s.2 2).2.2.pt 2 0x10000).map (·.flags.writecombine) = some false := by
  decide +kernel

end AddressSpace

end Leandros.Mm.Vmm
