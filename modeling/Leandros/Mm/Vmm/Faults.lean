import Leandros.Mm.Vmm.Slots

/-!
# Leandros.Mm.Vmm.Faults

**What a page fault can do.** `FaultEdit` lists the single edits the two halves of
a fault make to their VMA and to memory, each with what the code has checked when it
makes it. `planFault_edits` and `installFault_edits` say that a fault is a sequence of
such edits; every invariant is then proved edit by edit, and no other module unfolds
the fault code.

A reference taken by `lookup` is either in a page slot at the end of the edit or given
back in it, so no edit leaves one in the air.
-/

namespace Leandros.Mm.Vmm

namespace VmaRegion

variable {r : VmaRegion}

/-! ### The range of a VMA -/

/-- A page-aligned range of the address space. -/
structure Aligned (r : VmaRegion) : Prop where
  start_dvd : pageSize ∣ r.start
  stop_dvd : pageSize ∣ r.stop
  le : r.start ≤ r.stop
  stop_lt : r.stop < usizeLimit

variable {va : Nat}

theorem contains_iff : r.contains va = true ↔ r.start ≤ va ∧ va < r.stop := by
  rw [contains, Bool.and_eq_true, decide_eq_true_eq, decide_eq_true_eq]

theorem Aligned.stop_eq (h : r.Aligned) : r.stop = r.start + r.pages * pageSize := by
  obtain ⟨k, hk⟩ := h.start_dvd
  obtain ⟨m, hm⟩ := h.stop_dvd
  have hle := h.le
  rw [pages, wsub_of_le hle, hk, hm, ← Nat.mul_sub, Nat.mul_div_cancel_left _ (by decide),
    ← Nat.mul_comm pageSize, ← Nat.mul_add]
  rw [hk, hm] at hle
  rw [Nat.add_sub_cancel' (Nat.le_of_mul_le_mul_left hle (by decide))]

/-- The page of an address in the VMA. -/
theorem Aligned.index_lt (h : r.Aligned) (hva : r.contains va = true) :
    wsub va r.start / pageSize < r.pages := by
  obtain ⟨h1, h2⟩ := contains_iff.mp hva
  have hstop := h.stop_eq
  rw [wsub_of_le h1]
  exact Nat.div_lt_of_lt_mul (by rw [Nat.mul_comm]; omega)

theorem Aligned.alignDown_mem (h : r.Aligned) (hva : r.contains va = true) :
    r.contains (alignDown va pageSize) = true := by
  obtain ⟨h1, h2⟩ := contains_iff.mp hva
  exact contains_iff.mpr ⟨(le_alignDown_iff (by decide) h.start_dvd).mpr h1,
    (alignDown_le va pageSize).trans_lt h2⟩

theorem pageVa_index (h : r.Aligned) (hva : r.contains va = true)
    (hd : pageSize ∣ va) : r.pageVa (wsub va r.start / pageSize) = va := by
  obtain ⟨h1, -⟩ := contains_iff.mp hva
  rw [pageVa, wsub_of_le h1, Nat.div_mul_cancel (Nat.dvd_sub hd h.start_dvd)]
  omega

/-! ### Small edits of a VMA -/

/-- Everything a fault leaves alone. -/
structure SameVma (r r' : VmaRegion) : Prop where
  start : r'.start = r.start
  stop : r'.stop = r.stop
  phys : r'.phys = r.phys
  flags : r'.flags = r.flags
  lazy : r'.lazy = r.lazy
  prot : r'.prot = r.prot
  mapFlags : r'.mapFlags = r.mapFlags
  fileCap : r'.fileCap = r.fileCap
  fileOff : r'.fileOff = r.fileOff
  fileLen : r'.fileLen = r.fileLen
  cow : r'.cow = r.cow

theorem SameVma.refl (r : VmaRegion) : SameVma r r := by constructor <;> rfl

theorem SameVma.trans {r₁ r₂ r₃ : VmaRegion} (h : SameVma r₁ r₂) (h' : SameVma r₂ r₃) :
    SameVma r₁ r₃ :=
  ⟨h'.1.trans h.1, h'.2.trans h.2, h'.3.trans h.3, h'.4.trans h.4, h'.5.trans h.5, h'.6.trans h.6,
    h'.7.trans h.7, h'.8.trans h.8, h'.9.trans h.9, h'.10.trans h.10, h'.11.trans h.11⟩

section SameVma

variable {r' : VmaRegion}

variable (h : SameVma r r')
include h

theorem SameVma.pages : r'.pages = r.pages := by
  rw [VmaRegion.pages, VmaRegion.pages, h.start, h.stop]

theorem SameVma.pageVa (i : Nat) : r'.pageVa i = r.pageVa i := by
  rw [VmaRegion.pageVa, VmaRegion.pageVa, h.start]

theorem SameVma.aligned (ha : r.Aligned) : r'.Aligned :=
  ⟨h.start ▸ ha.1, h.stop ▸ ha.2, h.start ▸ h.stop ▸ ha.3, h.stop ▸ ha.4⟩

theorem SameVma.cachePgoff (i : Nat) : r'.cachePgoff i = r.cachePgoff i := by
  rw [VmaRegion.cachePgoff, VmaRegion.cachePgoff, h.lazy, h.fileCap, h.mapFlags, h.fileOff,
    h.fileLen]

end SameVma

variable (r : VmaRegion)

theorem sameVma_growTo (n : Nat) : SameVma r (r.growTo n) := by
  unfold growTo
  split <;> constructor <;> rfl

theorem sameVma_setWritten (idx : Nat) (on : Bool) :
    SameVma r (r.setWritten idx on) := by
  unfold setWritten
  split
  · split <;> constructor <;> rfl
  · constructor <;> rfl

@[simp] theorem slot_growTo (n i : Nat) :
    (r.growTo n).lazyPages.slot i = r.lazyPages.slot i := by
  unfold growTo
  split
  · next h => exact PageVec.slot_grow h.le i
  · rfl

theorem le_len_growTo (n : Nat) : n ≤ (r.growTo n).lazyPages.len := by
  unfold growTo
  split
  · exact le_rfl
  · omega

@[simp] theorem lazyPages_setWritten (idx : Nat) (on : Bool) :
    (r.setWritten idx on).lazyPages = r.lazyPages := by
  unfold setWritten
  split
  · split <;> rfl
  · rfl

@[simp] theorem lazyCount_setWritten (idx : Nat) (on : Bool) :
    (r.setWritten idx on).lazyCount = r.lazyCount := by
  unfold setWritten
  split
  · split <;> rfl
  · rfl

@[simp] theorem lazyCount_growTo (n : Nat) : (r.growTo n).lazyCount = r.lazyCount := by
  unfold growTo
  split <;> rfl

end VmaRegion

open VmaRegion

/-! ### The edits -/

/-- One edit of a fault. -/
inductive FaultEdit (env : Env) (root : Nat) : VmaRegion × Vm → VmaRegion × Vm → Prop
  /-- `lazy_pages` gets longer. -/
  | grow {r : VmaRegion} {vm : Vm} {n : Nat} (hn : n ≤ r.pages) :
      FaultEdit env root (r, vm) (r.growTo n, vm)
  /-- The written bit of an absent page. -/
  | bit {r : VmaRegion} {vm : Vm} {idx : Nat} (on : Bool) (habs : r.lazyPages.slot idx = 0) :
      FaultEdit env root (r, vm) (r.setWritten idx on, vm)
  | dirty {r : VmaRegion} {vm : Vm} {key pg phys : Nat} (hphys : phys ≠ 0) :
      FaultEdit env root (r, vm) (r, vm.markDirty key pg phys)
  /-- A cached frame is mapped: read-only, or as a shared mapping's write. -/
  | cached {r : VmaRegion} {vm vm₁ : Vm} {idx key pg phys : Nat} {exec on : Bool}
      (habs : r.lazyPages.slot idx = 0) (hlen : idx < r.lazyPages.len) (hidx : idx < r.pages)
      (hpg : r.cachePgoff idx = some pg) (hlook : vm.lookup key pg exec = (some phys, vm₁))
      (hon : on = true → r.mapFlags.shared = true)
      (hbit : ∃ r₀, SameVma r₀ r ∧ r.written = (r₀.setWritten idx on).written) :
      FaultEdit env root (r, vm)
        (r.addPage idx phys, vm₁.mapPage root (r.pageVa idx) phys (r.cachedFlags idx on))
  /-- A cached frame is looked up and let go. -/
  | bounced {r : VmaRegion} {vm vm₁ : Vm} {key pg phys : Nat} {exec : Bool}
      (hlook : vm.lookup key pg exec = (some phys, vm₁)) :
      FaultEdit env root (r, vm) (r, vm₁.unref phys)
  /-- A new frame is mapped. -/
  | fresh {r : VmaRegion} {vm vm₁ : Vm} {answer : Option Nat} {idx phys : Nat} (bytes : Nat → Nat)
      (habs : r.lazyPages.slot idx = 0) (hlen : idx < r.lazyPages.len) (hidx : idx < r.pages)
      (halloc : vm.alloc answer 0 = some (phys, vm₁)) :
      FaultEdit env root (r, vm) (r.addPage idx phys,
        (vm₁.fill phys bytes).mapPage root (r.pageVa idx) phys (r.installFlags idx r.flags))
  /-- A new frame is given back. -/
  | spent {r : VmaRegion} {vm vm₁ vm₂ : Vm} {answer : Option Nat} {phys : Nat} (bytes : Nat → Nat)
      (halloc : vm.alloc answer 0 = some (phys, vm₁))
      (hback : vm₂ = (vm₁.fill phys bytes).free phys 0 ∨ vm₂ = (vm₁.fill phys bytes).unref phys) :
      FaultEdit env root (r, vm) (r, vm₂)
  /-- A present page is mapped with the VMA's flags: its frame has no other owner, or
  the mapping is shared. -/
  | remap {r : VmaRegion} {vm : Vm} {idx phys : Nat} (hslot : r.lazyPages.slot idx = phys)
      (hphys : phys ≠ 0) (hown : r.mapFlags.shared = true ∨ vm.refs phys ≤ 1) :
      FaultEdit env root (r, vm)
        (r.setWritten idx true, vm.mapPage root (r.pageVa idx) phys r.flags)
  /-- The frame of a present page is replaced by a copy. -/
  | copied {r : VmaRegion} {vm vm₁ : Vm} {answer : Option Nat} {idx phys new : Nat}
      (hslot : r.lazyPages.slot idx = phys) (hphys : phys ≠ 0) (hshared : 1 < vm.refs phys)
      (halloc : vm.alloc answer 0 = some (new, vm₁)) :
      FaultEdit env root (r, vm)
        ({ r with lazyPages := r.lazyPages.set idx new }.setWritten idx true,
          (((vm₁.copyFrame phys new).unmapPage root (r.pageVa idx)).mapPage root (r.pageVa idx) new
            r.flags).dec phys)
  /-- The copy could not be mapped. -/
  | copyFailed {r : VmaRegion} {vm vm₁ : Vm} {answer : Option Nat} {idx phys new : Nat}
      (hslot : r.lazyPages.slot idx = phys) (hphys : phys ≠ 0)
      (halloc : vm.alloc answer 0 = some (new, vm₁))
      (hfail : env.install root (r.pageVa idx) = false) :
      FaultEdit env root (r, vm)
        (r, ((vm₁.copyFrame phys new).unmapPage root (r.pageVa idx)).free new 0)

/-- The edits of a whole fault. -/
abbrev FaultEdits (env : Env) (root : Nat) : VmaRegion × Vm → VmaRegion × Vm → Prop :=
  Relation.ReflTransGen (FaultEdit env root)

variable {env : Env} {root : Nat}

variable {x y : VmaRegion × Vm}

theorem FaultEdit.sameVma
    (h : FaultEdit env root x y) : SameVma x.1 y.1 := by
  cases h with
  | grow => exact sameVma_growTo ..
  | bit => exact sameVma_setWritten ..
  | cached | fresh => constructor <;> rfl
  | @remap r _ idx => exact sameVma_setWritten r idx true
  | @copied r _ _ _ idx _ new =>
    have hset : SameVma r { r with lazyPages := r.lazyPages.set idx new } :=
      ⟨rfl, rfl, rfl, rfl, rfl, rfl, rfl, rfl, rfl, rfl, rfl⟩
    exact hset.trans (sameVma_setWritten _ idx true)
  | dirty | bounced | spent | copyFailed => exact SameVma.refl _

theorem FaultEdits.sameVma
    (h : FaultEdits env root x y) : SameVma x.1 y.1 := by
  induction h with
  | refl => exact SameVma.refl _
  | tail _ he ih => exact ih.trans he.sameVma

/-- **Induction over the edits of a fault**, with the VMA it started from. -/
theorem FaultEdits.invariant {P : VmaRegion × Vm → Prop}
    (h : FaultEdits env root x y) (hx : P x)
    (hstep : ∀ y z, SameVma x.1 y.1 → P y → FaultEdit env root y z → P z) : P y := by
  induction h with
  | refl => exact hx
  | tail hxy he ih => exact hstep _ _ (FaultEdits.sameVma hxy) ih he

/-! ### The functions of a fault -/

namespace VmaRegion

variable {env : Env} {root : Nat} {r : VmaRegion} {vm vm₁ : Vm}

variable {exec isWrite : Bool} {idx : Nat} {data : List Nat} {p : FileFault}

/-- A page that is not cached leaves memory as it is; a cached frame has a number. -/
theorem lookup_cases (vm : Vm) (key pg : Nat) (exec : Bool) :
    vm.lookup key pg exec = (none, vm) ∨
      ∃ phys vm₁, vm.lookup key pg exec = (some phys, vm₁) ∧ phys ≠ 0 := by
  unfold Vm.lookup PageCache.World.lookup
  split
  · exact .inl rfl
  split
  · exact .inl rfl
  split
  · exact .inl rfl
  split
  · exact .inl rfl
  next p _ hp =>
  refine .inr ⟨_, _, rfl, ?_⟩
  have hpub : p.published = true := by simpa using hp
  rw [PageCache.Page.published, Bool.and_eq_true, bne_iff_ne] at hpub
  exact hpub.2

theorem lookup_ne_zero {key pg phys : Nat} (h : vm.lookup key pg exec = (some phys, vm₁)) : phys ≠ 0 := by
  rcases lookup_cases vm key pg exec with he | ⟨_, _, he, h0⟩
  · nomatch h.symm.trans he
  · cases h.symm.trans he
    exact h0

/-- The VMA as `install_cached` leaves it before the page is mapped. -/
def readied (r : VmaRegion) (idx : Nat) (on : Bool) : VmaRegion :=
  (r.growTo (min (idx + 1) r.pages)).setWritten idx on

theorem installFlags_anon (h : r.fileCap.isFileBacked = false) (fl : PageFlags) :
    r.installFlags idx fl = fl := by
  rw [installFlags, cleanFilePage, tracksWritten, h, Bool.and_false, Bool.false_and, Bool.false_and,
    Bool.and_false]
  rfl

section

variable (habs : r.lazyPages.slot idx = 0)
include habs

theorem readied_edits (on : Bool) : FaultEdits env root (r, vm) (r.readied idx on, vm) :=
  .tail (.single (.grow (min_le_right _ _))) (.bit on (by rwa [slot_growTo]))

variable (hidx : idx < r.pages)
include hidx

section

variable {key pg phys : Nat} (hpg : r.cachePgoff idx = some pg)
  (hlook : vm.lookup key pg exec = (some phys, vm₁))
include hpg hlook

section

variable (on : Bool) (hon : on = true → r.mapFlags.shared = true)
include hon

/-- A looked-up frame is installed. -/
theorem cached_edits :
    FaultEdits env root (r, vm) ((r.readied idx on).addPage idx phys,
      vm₁.mapPage root ((r.readied idx on).pageVa idx) phys ((r.readied idx on).cachedFlags idx on)) := by
  have hsame : SameVma r (r.readied idx on) := (sameVma_growTo ..).trans (sameVma_setWritten ..)
  refine .tail (readied_edits habs on) (.cached ?_ ?_ (by rwa [hsame.pages])
    (by rwa [hsame.cachePgoff]) hlook (by rwa [hsame.mapFlags]) ⟨r.growTo _, sameVma_setWritten .., rfl⟩)
  · rw [readied, lazyPages_setWritten, slot_growTo, habs]
  · rw [readied, lazyPages_setWritten]
    have := le_len_growTo r (min (idx + 1) r.pages)
    omega

/-- **`install_cached`** with a looked-up frame, which is given back if it cannot be mapped. -/
theorem installCached_edits : ∃ r' vm',
      r.installCached env root (if on then vm₁.markDirty key pg phys else vm₁) idx phys on =
        (true, r', vm') ∧ FaultEdits env root (r, vm) (r', vm') ∨
      r.installCached env root (if on then vm₁.markDirty key pg phys else vm₁) idx phys on =
        (false, r', vm') ∧ FaultEdits env root (r, vm) (r', vm'.unref phys) := by
  -- `mark_dirty` and the page-table write touch different parts of memory.
  have hdirty : ∀ {r' : VmaRegion} {vm' : Vm}, FaultEdits env root (r, vm) (r', vm') →
      FaultEdits env root (r, vm) (r', if on then vm'.markDirty key pg phys else vm') := by
    intro r' vm' h
    split
    · exact h.tail (.dirty (lookup_ne_zero hlook))
    · exact h
  rw [installCached]
  by_cases hin : env.install root ((r.readied idx on).pageVa idx)
  · have := hdirty (cached_edits habs hidx hpg hlook _ hon)
    rw [readied] at hin
    rw [if_pos hin]
    cases on <;> exact ⟨_, _, .inl ⟨rfl, this⟩⟩
  · have := hdirty (.tail (readied_edits habs on) (.bounced hlook))
    rw [readied] at hin
    rw [if_neg hin]
    cases on <;> exact ⟨_, _, .inr ⟨rfl, this⟩⟩

end

omit habs hidx hpg hlook in
/-- The pages around a fault are mapped if the cache has them. -/
theorem faultAround_edits (fuel : Nat) : ∀ {i : Nat} {r : VmaRegion} {vm : Vm},
    FaultEdits env root (r, vm) (faultAround env root key idx fuel i r vm) := by
  induction fuel with
  | zero => exact .refl
  | succ fuel ih =>
    intro i r vm
    rw [faultAround]
    split
    · next hi =>
      obtain ⟨hidx, habs⟩ := hi
      cases hpg : r.cachePgoff (idx + i) with
      | none => exact .refl
      | some pg =>
        dsimp only
        rcases lookup_cases vm key pg r.flags.execute with hlook | ⟨phys, vm₁, hlook, -⟩
        · rw [hlook]
        rw [hlook]
        dsimp only
        -- installed and on to the next page, or stopped there
        obtain ⟨r', vm', ⟨he, hed⟩ | ⟨he, hed⟩⟩ :=
          installCached_edits habs hidx hpg hlook false nofun
        · rw [show r.installCached env root vm₁ _ _ _ = _ from he]
          exact hed.trans ih
        · rw [show r.installCached env root vm₁ _ _ _ = _ from he]
          exact hed
    · exact .refl

theorem cacheHit_edits :
    FaultEdits env root (r, vm) (r.cacheHit env root vm₁ idx key pg phys isWrite).2 := by
  rw [cacheHit]
  have hon : (isWrite && r.mapFlags.shared && r.flags.writable) = true → r.mapFlags.shared = true := by
    simp only [Bool.and_eq_true]
    exact fun h => h.1.2
  obtain ⟨r', vm', ⟨he, hed⟩ | ⟨he, hed⟩⟩ := installCached_edits habs hidx hpg hlook _ hon
  · rw [he]
    exact hed.trans (faultAround_edits _)
  · rw [he]
    exact hed

end

theorem absentFileFault_edits {va cap : Nat} :
    FaultEdits env root (r, vm) (r.absentFileFault env root vm va idx cap isWrite).2 := by
  rw [absentFileFault]
  cases hpg : r.cachePgoff idx with
  | none => exact .refl
  | some pg =>
    dsimp only
    split
    · exact .refl
    rcases lookup_cases vm (env.fileKey cap) pg r.flags.execute with hlook | ⟨phys, vm₁, hlook, -⟩
    · rw [hlook]
    · rw [hlook]
      exact cacheHit_edits habs hidx hpg hlook

theorem absentAnonFault_edits {va : Nat} (hva : r.pageVa idx = va)
    (hcap : r.fileCap.isFileBacked = false) :
    FaultEdits env root (r, vm) (r.absentAnonFault env root vm va idx isWrite).2 := by
  subst hva
  rw [absentAnonFault]
  split
  · exact .refl
  cases halloc : vm.alloc (env.frame 0) 0 with
  | none => exact .refl
  | some out =>
    obtain ⟨phys, vm₁⟩ := out
    dsimp only
    split
    · have hsame := sameVma_growTo r (idx + 1)
      refine .tail (.single (.grow hidx)) ?_
      have hflags : (r.growTo (idx + 1)).installFlags idx (r.growTo (idx + 1)).flags = r.flags := by
        rw [installFlags_anon (by rwa [hsame.fileCap]), hsame.flags]
      rw [← hflags, ← hsame.pageVa]
      exact .fresh (fun _ => 0) (by rwa [slot_growTo]) (le_len_growTo r (idx + 1))
        (by rwa [hsame.pages]) halloc
    · exact .single (.spent _ halloc (.inl rfl))

end

section

variable {va phys : Nat} (hva : r.pageVa idx = va) (hslot : r.lazyPages.slot idx = phys)
  (hphys : phys ≠ 0)
include hva hslot hphys

theorem promote_edits :
    FaultEdits env root (r, vm) (r.promote env root vm va idx phys).2 := by
  subst hva
  rw [promote]
  split
  · next hone =>
    split
    · exact .single (.remap hslot hphys (.inr hone))
    · exact .refl
  · next hmany =>
    cases halloc : vm.alloc (env.frame 0) 0 with
    | none => exact .refl
    | some out =>
      obtain ⟨new, vm₁⟩ := out
      dsimp only
      split
      · exact .single (.copied hslot hphys (by omega) halloc)
      · next hin => exact .single (.copyFailed hslot hphys halloc (by simpa using hin))

/-- A write fault on a page that is there. -/
theorem presentFault_edits :
    FaultEdits env root (r, vm) (r.presentFault env root vm va idx phys isWrite).2 := by
  subst hva
  rw [presentFault]
  split
  · next cap hcap hsh =>
    -- a write to a shared page of a file
    have hshared : r.mapFlags.shared = true := by
      rw [Bool.and_eq_true] at hsh
      exact hsh.1
    rw [sharedWrite]
    cases r.cachePgoff idx with
    | none =>
      dsimp only
      split
      · exact .single (.remap hslot hphys (.inl hshared))
      · exact .refl
    | some =>
      dsimp only
      split
      · exact .tail (.single (.dirty hphys)) (.remap hslot hphys (.inl hshared))
      · exact .single (.dirty hphys)
  · split
    · exact .refl
    · exact promote_edits rfl hslot hphys

end

/-- **The first half of a fault** is a sequence of edits. -/
theorem planFault_edits (ha : r.Aligned) {va : Nat} (hva : r.contains va = true) (isWrite : Bool) :
    FaultEdits env root (r, vm) (r.planFault env root vm va isWrite).2 := by
  rw [planFault]
  split
  · exact .refl
  split
  · exact .refl
  have hmem := ha.alignDown_mem hva
  have hidx := ha.index_lt hmem
  have hpage := pageVa_index ha hmem (dvd_alignDown ..)
  dsimp only
  split
  · next hphys => exact presentFault_edits hpage rfl hphys
  · next hphys =>
    have habs : r.lazyPages.slot (wsub (alignDown va pageSize) r.start / pageSize) = 0 := by
      simpa using hphys
    cases hcap : r.fileCap with
    | file => exact absentFileFault_edits habs hidx
    | anon | device => exact absentAnonFault_edits habs hidx hpage (by rw [hcap]; rfl)

/-! ### The second half -/

theorem windowPgoff_eq {i valid pg : Nat}
    (h : r.windowPgoff p idx i valid = some pg) : r.cachePgoff idx = some pg := by
  rw [windowPgoff] at h
  split at h
  · exact h
  · contradiction

section

variable (habs : r.lazyPages.slot idx = 0) (hlen : idx < r.lazyPages.len) (hidx : idx < r.pages)
  {i valid : Nat}
include habs hlen hidx

theorem privatePage_edits :
    FaultEdits env root (r, vm) (r.privatePage env root vm idx i valid data).2 := by
  rw [privatePage]
  cases halloc : vm.alloc (env.frame i) 0 with
  | none => exact .refl
  | some out =>
    obtain ⟨phys, vm₁⟩ := out
    have hsame := sameVma_setWritten r idx false
    have hbit : FaultEdits env root (r, vm) (r.setWritten idx false, vm) := .single (.bit false habs)
    dsimp only
    split
    · exact hbit.tail (.fresh _ (by rwa [lazyPages_setWritten]) (by rwa [lazyPages_setWritten])
        (by rwa [hsame.pages]) halloc)
    · exact hbit.tail (.spent _ halloc (.inr rfl))

theorem uncachedPage_edits :
    FaultEdits env root (r, vm) (r.uncachedPage env root vm p idx i valid data).2 := by
  rw [uncachedPage]
  split
  · exact .refl
  · exact privatePage_edits habs hlen hidx

theorem installPage_edits :
    FaultEdits env root (r, vm) (r.installPage env root vm p idx i valid data).2 := by
  rw [installPage]
  cases hw : r.windowPgoff p idx i valid with
  | none => exact uncachedPage_edits habs hlen hidx
  | some pg =>
    have hpg := windowPgoff_eq hw
    dsimp only
    rcases lookup_cases vm p.key pg r.flags.execute with hlook | ⟨phys, vm₁, hlook, -⟩
    · rw [hlook]
      exact uncachedPage_edits habs hlen hidx
    rw [hlook]
    dsimp only
    obtain ⟨r', vm', ⟨he, hed⟩ | ⟨he, hed⟩⟩ := installCached_edits habs hidx hpg hlook
      (r.mapFlags.shared && decide (i = 0) && p.write && r.flags.writable) (by simp +contextual)
    · rw [he]
      exact hed
    · rw [he]
      exact hed

end

/-- The loop that installs the pages a file server has read. -/
theorem installLoop_edits {pageIdx valid : Nat} (fuel : Nat) :
    ∀ {i : Nat} {r : VmaRegion} {vm : Vm} {out : Fault × VmaRegion × Vm},
      installLoop env root p pageIdx valid data fuel i r vm = some out →
        FaultEdits env root (r, vm) out.2 := by
  induction fuel with
  | zero =>
    intro i r vm out h
    rw [← Option.some.inj h]
  | succ fuel ih =>
    intro i r vm out h
    rw [installLoop] at h
    split at h
    · rw [← Option.some.inj h]
    · next hidx =>
      cases hget : r.lazyPages.get (pageIdx + i) with
      | none =>
        rw [hget] at h
        contradiction
      | some =>
        obtain ⟨hlen, hslot⟩ := PageVec.get_eq_some.mp hget
        rw [hget] at h
        dsimp only at h
        split at h
        · exact ih h
        · next hphys =>
          have hp : FaultEdits env root (r, vm)
              (r.installPage env root vm p (pageIdx + i) i valid data).2 :=
            installPage_edits (hslot.trans (by simpa using hphys)) hlen (by omega)
          -- a page that could not be installed ends the loop
          revert h hp
          cases r.installPage env root vm p (pageIdx + i) i valid data with
          | mk flow rest =>
            obtain ⟨r', vm'⟩ := rest
            intro h hp
            cases flow with
            | some =>
              rw [← Option.some.inj h]
              exact hp
            | none => exact hp.trans (ih h)

/-- **The second half of a fault** is a sequence of edits. -/
theorem installFault_edits {got : Int}
    {out : Fault × VmaRegion × Vm} (h : r.installFault env root vm p data got = some out) :
    FaultEdits env root (r, vm) out.2 := by
  rw [installFault] at h
  split at h
  · rw [← Option.some.inj h]
  split at h
  · rw [← Option.some.inj h]
  cases hres : readResult p data.length got with
  | error =>
    rw [hres] at h
    rw [← Option.some.inj h]
  | ok res =>
    obtain ⟨valid, pages⟩ := res
    rw [hres] at h
    exact .head (.grow (min_le_right _ _)) (installLoop_edits _ h)

end VmaRegion

end Leandros.Mm.Vmm
