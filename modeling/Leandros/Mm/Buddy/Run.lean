import Leandros.Lib.Machine
import Leandros.Mm.Buddy.Init

/-!
# Leandros.Mm.Buddy.Run

Whole runs of the allocator: boot, then any sequence of calls. The state pairs
the allocator with the set of pages callers hold, and the callers may write any
word of those pages at any time.

**The representation invariant** (`WellFormed`) holds after boot and after
every call, and every call returns (`buddy_wellFormed`).

**Wrong frees.** `free` looks at the bitmap only for the block's first page, so it refuses what
its bounds and the recorded ranges show and a free of a listed block (`wrong_free_refused`), and takes
back a page that has merged into a larger block (`merged_page_freed`).
-/

namespace Leandros.Mm

open DList (Chain)

namespace Buddy

/-- The allocator and the pages handed out. -/
structure State where
  buddy : Buddy
  allocated : Finset Nat

/-- A call of the allocator, or a write by the owner of an allocated page. -/
inductive Call
  | alloc (order : Nat)
  | allocBelow (order limit : Nat)
  | free (addr order : Nat)
  | store (addr v : Nat)

/-- What a caller may do: free any aligned block of pages it holds, in
whatever pieces they were allocated, and write to pages it holds. -/
def Permitted (st : State) : Call → Prop
  | .alloc _ => True
  | .allocBelow _ _ => True
  | .free addr order => pageSize <<< order ∣ addr ∧ blockPages order addr ⊆ st.allocated
  | .store addr _ => addr / pageSize ∈ st.allocated

/-- The pages of an allocation's answer join the allocated ones. -/
def State.handOut (st : State) (order : Nat) (r : Option Nat × Buddy) : State where
  buddy := r.2
  allocated := match r.1 with
    | some addr => st.allocated ∪ blockPages order addr
    | none => st.allocated

/-- One call. A `free` past the top order is refused by the code, and its
pages stay with the caller. -/
def State.step (st : State) : Call → Option State
  | .alloc order => (st.buddy.allocUntracked order).map (st.handOut order)
  | .allocBelow order limit => (st.buddy.allocBelowUntracked order limit).map (st.handOut order)
  | .free addr order => (st.buddy.free addr order).map fun b =>
    ⟨b, if order < maxOrder then st.allocated \ blockPages order addr else st.allocated⟩
  | .store addr v => some ⟨st.buddy.store addr v, st.allocated⟩

/-- Boot: record the reserved ranges, then `init_from_map`. -/
def boot (mem : Nat → Nat) (ranges : List PhysRange) (regions : List MemoryRegion) : Option Buddy :=
  (ranges.foldl reserveRange (fresh mem)).initFromMap regions

def Booted (mem : Nat → Nat) (ranges : List PhysRange) (regions : List MemoryRegion)
    (st : State) : Prop :=
  boot mem ranges regions = some st.buddy ∧ st.allocated = ∅

/-- A page of RAM the allocator manages: inside an Available region, above
the first MiB, off the reserved ranges and off the bitmap. -/
def Usable (ranges : List PhysRange) (regions : List MemoryRegion) (s : Buddy) (p : Nat) : Prop :=
  (∃ r ∈ regions, r.HasPage p) ∧
  (∀ r ∈ ranges, r.start < r.stop → ¬(p * pageSize < r.stop ∧ r.start < (p + 1) * pageSize)) ∧
  (s.bitmapPhys < s.bitmapPhysEnd →
    ¬(p * pageSize < s.bitmapPhysEnd ∧ s.bitmapPhys < (p + 1) * pageSize))

/-- The representation invariant, over the lists `L` the memory spells out. -/
structure WellFormed (ranges : List PhysRange) (regions : List MemoryRegion) (st : State)
    (L : Nat → List Nat) : Prop where
  /-- Doubly linked lists whose nodes record their order. -/
  head : ∀ o < maxOrder, st.buddy.freeLists o = (L o).head?
  chain : ∀ o < maxOrder, Chain st.buddy.nodeNext st.buddy.nodePrev 0 (L o)
  order : ∀ o < maxOrder, ∀ a ∈ L o, st.buddy.nodeOrder a = o
  nodup : ∀ o < maxOrder, (L o).Nodup
  /-- The free-head bits of all pages the bitmap covers: all usable ones, if
  there is a bitmap. -/
  headBits : ∀ a < st.buddy.coverEnd, pageSize ∣ a →
    (st.buddy.headBit a = true ↔ ∃ o < maxOrder, a ∈ L o)
  covers : st.buddy.coverEnd = 0 ∨
    ∀ p, Usable ranges regions st.buddy p → p * pageSize < st.buddy.coverEnd
  /-- Where listed blocks are. -/
  aligned : ∀ o < maxOrder, ∀ a ∈ L o, pageSize <<< o ∣ a
  disjoint : ∀ o < maxOrder, ∀ o' < maxOrder, ∀ a ∈ L o, ∀ a' ∈ L o', o ≠ o' ∨ a ≠ a' →
    Disjoint (blockPages o a) (blockPages o' a')
  notAllocated : ∀ o < maxOrder, ∀ a ∈ L o, Disjoint (blockPages o a) st.allocated
  notReserved : ∀ o < maxOrder, ∀ a ∈ L o, ∀ r ∈ ranges, r.start < r.stop →
    r.stop ≤ a ∨ a + (pageSize <<< o) ≤ r.start
  notBitmap : ∀ o < maxOrder, ∀ a ∈ L o, st.buddy.bitmapPhys < st.buddy.bitmapPhysEnd →
    st.buddy.bitmapPhysEnd ≤ a ∨ a + (pageSize <<< o) ≤ st.buddy.bitmapPhys
  aboveLow : ∀ o < maxOrder, ∀ a ∈ L o, lowReservedEnd ≤ a
  /-- Every usable page is free or allocated, never both, and the free ones
  are counted. -/
  usable : ∀ p, Usable ranges regions st.buddy p ↔ p ∈ freeSet L ∨ p ∈ st.allocated
  exclusive : Disjoint (freeSet L) st.allocated
  counted : st.buddy.freePages = (freeSet L).card
  /-- No two buddies below the top order are both listed. -/
  merged : NoBuddies L

/-! ### The invariant of a run -/

/-- `WellFormed` in the terms of the pool. -/
structure Inv (ranges : List PhysRange) (regions : List MemoryRegion) (st : State)
    (L : Nat → List Nat) : Prop where
  pool : st.buddy.Pool L
  exclusive : Disjoint (freeSet L) st.allocated
  pages : ∀ p, (∃ r ∈ regions, r.HasPage p) ∧ st.buddy.pageClear p ↔
    p ∈ freeSet L ∨ p ∈ st.allocated
  good : ∀ p ∈ st.allocated, st.buddy.GoodBlock 0 (p * pageSize)
  reserved : st.buddy.reserved =
    slots ranges ++ List.replicate (maxReserved - (slots ranges).length) (0, 0)
  cover : st.buddy.coverEnd = 0 ∨ st.buddy.coverEnd = bitmapTop regions

variable {ranges : List PhysRange} {regions : List MemoryRegion} {st : State}
  {L : Nat → List Nat}

/-- The recorded slots are the nonempty ranges. -/
theorem Inv.pageClear_iff (h : Inv ranges regions st L) (p : Nat) : st.buddy.pageClear p ↔
      (∀ r ∈ ranges, r.start < r.stop → ¬(p * pageSize < r.stop ∧ r.start < (p + 1) * pageSize)) ∧
      (st.buddy.bitmapPhys < st.buddy.bitmapPhysEnd →
        ¬(p * pageSize < st.buddy.bitmapPhysEnd ∧ st.buddy.bitmapPhys < (p + 1) * pageSize)) := by
  have hbm := h.pool.rep.config.ranges _ (List.mem_cons_self ..)
  rw [pageClear, overlapsReserved, Bool.or_eq_false_iff, and_comm]
  refine and_congr ?_ ?_
  · rw [h.reserved, List.any_append, Bool.or_eq_false_iff, List.any_eq_false, List.any_eq_false]
    constructor
    · rintro ⟨h1, -⟩ r hr hlt
      rw [← overlapsRange_slotOf hlt]
      exact h1 _ (mem_slots.mpr ⟨r, hr, hlt, rfl⟩)
    · refine fun h1 => ⟨fun x hx => ?_, fun x hx => ?_⟩
      · obtain ⟨r, hr, hlt, rfl⟩ := mem_slots.mp hx
        rw [overlapsRange_slotOf hlt]
        exact h1 r hr hlt
      · rw [List.eq_of_mem_replicate hx]
        exact Bool.false_ne_true
  · rw [Nat.succ_mul]
    simp only [overlapsRange, Bool.and_eq_false_iff, bne_eq_false_iff_eq, decide_eq_false_iff_not]
    omega

/-- A block that overlaps no recorded slot meets no reserved range. -/
theorem Inv.clear_range (h : Inv ranges regions st L) {addr size : Nat}
    (hcl : st.buddy.overlapsReserved addr size = false) {r : PhysRange} (hr : r ∈ ranges)
    (hlt : r.start < r.stop) : r.stop ≤ addr ∨ addr + size ≤ r.start := by
  simp only [overlapsReserved, Bool.or_eq_false_iff] at hcl
  have hmem : slotOf r ∈ st.buddy.reserved := by
    rw [h.reserved]
    exact List.mem_append_left _ (mem_slots.mpr ⟨r, hr, hlt, rfl⟩)
  have hno := Bool.eq_false_of_not_eq_true (List.any_eq_false.mp hcl.2 _ hmem)
  refine ((overlapsRange_eq_false (slotOf_lt hlt)).mp hno).imp (fun h1 => ?_) fun h1 => ?_
  · exact (le_alignUp pageSize_pos (range_fits r)).trans h1
  · exact h1.trans (alignDown_le _ _)

/-- Nor the bitmap. -/
theorem clear_bitmap {s : Buddy} {addr size : Nat} (hcl : s.overlapsReserved addr size = false)
    (hlt : s.bitmapPhys < s.bitmapPhysEnd) :
    s.bitmapPhysEnd ≤ addr ∨ addr + size ≤ s.bitmapPhys := by
  simp only [overlapsReserved, Bool.or_eq_false_iff] at hcl
  exact (overlapsRange_eq_false hlt).mp hcl.1

/-- The pool invariant spells out as `WellFormed`. -/
theorem Inv.wellFormed (h : Inv ranges regions st L) : WellFormed ranges regions st L where
  head := h.pool.rep.head
  chain := h.pool.rep.chain
  order := h.pool.rep.order
  nodup := h.pool.rep.nodup
  headBits := h.pool.rep.bits
  covers := by
    refine h.cover.imp_right fun hc p hp => ?_
    obtain ⟨⟨r, hr, hpage⟩, -⟩ := hp
    have hend := ((hasPage_iff r p).mp hpage).2.2
    have htop := (bitmapTop_spec regions).2.2 r hr hpage.1
    rw [hc]
    exact ((Nat.lt_div_iff_mul_lt_of_dvd pageSize_pos.ne' (dvd_regionEnd r)).mp hend).trans_le htop
  aligned o ho a ha := (h.pool.rep.good o ho a ha).aligned
  disjoint := h.pool.rep.disj
  notAllocated o ho a ha := h.exclusive.mono_left (blockPages_subset_freeSet ho ha)
  notReserved o ho a ha r hr hlt := h.clear_range (h.pool.rep.good o ho a ha).clear hr hlt
  notBitmap o ho a ha hlt := clear_bitmap (h.pool.rep.good o ho a ha).clear hlt
  aboveLow o ho a ha := (h.pool.rep.good o ho a ha).low
  usable p := by rw [Usable, ← h.pageClear_iff]; exact h.pages p
  exclusive := h.exclusive
  counted := h.pool.count
  merged := h.pool.merged

/-! ### Boot and steps -/

/-- The allocator after boot has all usable pages and has handed out none. -/
theorem boot_inv (mem : Nat → Nat) {ranges : List PhysRange} {regions : List MemoryRegion}
    (hlen : ranges.length ≤ maxReserved) (hd : RegionsDisjoint regions) :
    ∃ b L, boot mem ranges regions = some b ∧ Inv ranges regions ⟨b, ∅⟩ L := by
  obtain ⟨slots', hs⟩ := reserveRanges_fresh mem ranges
  have hres := reserveRanges_reserved mem ranges hlen
  rw [boot, hs]
  rw [hs] at hres
  have hrep : { fresh mem with reserved := slots' }.Rep noBlocks := by
    refine rep_noBlocks (fun _ _ => rfl) ⟨rfl, fun a ha => absurd ha (Nat.not_lt_zero a), ?_,
      Nat.zero_le _⟩ fun a ha => absurd ha (Nat.not_lt_zero a)
    intro x hx
    rcases List.mem_cons.mp hx with rfl | hx
    · exact le_rfl
    rw [hres] at hx
    rcases List.mem_append.mp hx with hx | hx
    · obtain ⟨r, -, hlt, rfl⟩ := mem_slots.mp hx
      exact (slotOf_lt hlt).le
    · rw [List.eq_of_mem_replicate hx]
  obtain ⟨b, L, hb, hp, hr, hc, hm⟩ := initFromMap_pool hrep rfl rfl hd
  exact ⟨b, L, hb, ⟨hp, Finset.disjoint_empty_right _, fun p => by simp [hm], fun p hp => by
    simp at hp, hr.trans hres, hc⟩⟩

section

variable (h : Inv ranges regions st L)
include h

/-- What a call must provide for the invariant to carry over. -/
theorem Inv.of_frame {b : Buddy} {L' : Nat → List Nat}
    {alloc : Finset Nat} (hp : b.Pool L') (hf : Frame st.buddy b)
    (hex : Disjoint (freeSet L') alloc)
    (hsame : ∀ p, p ∈ freeSet L' ∨ p ∈ alloc ↔ p ∈ freeSet L ∨ p ∈ st.allocated) :
    Inv ranges regions ⟨b, alloc⟩ L' := by
  refine ⟨hp, hex, fun p => ?_, fun p hpa => ?_, hf.reserved.trans h.reserved, ?_⟩
  · rw [hf.boot.pageClear, h.pages, hsame]
  · rcases (hsame p).mp (Or.inr hpa) with hq | hq
    · obtain ⟨o, ho, a, ha, hq⟩ := mem_freeSet.mp hq
      exact ((h.pool.rep.good o ho a ha).pages h.pool.rep.config hq).frame hf
    · exact (h.good p hq).frame hf
  · rw [hf.coverEnd]
    exact h.cover

/-- Handing out a block moves its pages from free to allocated. -/
theorem Inv.handOut {order : Nat} {r : Option Nat × Buddy}
    (hr : AllocOutcome st.buddy L order r) : ∃ L', Inv ranges regions (st.handOut order r) L' ∧
      ∀ a, r.1 = some a → freeSet L' = freeSet L \ blockPages order a := by
  obtain ⟨r, b⟩ := r
  rcases hr with ⟨rfl, rfl⟩ | ⟨addr, rfl, ha⟩
  · exact ⟨L, h, nofun⟩
  obtain ⟨L', hp, hfs⟩ := ha.pool
  refine ⟨L', h.of_frame hp ha.frame ?_ fun p => ?_, fun a he => Option.some.inj he ▸ hfs⟩
  · rw [hfs, Finset.disjoint_union_right]
    exact ⟨h.exclusive.mono_left Finset.sdiff_subset, Finset.sdiff_disjoint⟩
  rw [hfs]
  by_cases hb : p ∈ blockPages order addr
  · simp [hb, ha.wasFree hb]
  · simp [hb]

/-- A write to an allocated page reaches no list node and no bitmap word. -/
theorem Inv.store {addr v : Nat} (ha : addr / pageSize ∈ st.allocated) :
    Inv ranges regions ⟨st.buddy.store addr v, st.allocated⟩ L := by
  have hr := h.pool.rep
  have hmem : ∀ x, x ≠ addr → (st.buddy.store addr v).mem x = st.buddy.mem x := fun x hx => by
    rw [store_mem, if_neg hx]
  -- A node word lies in its block's first page, which is free.
  have hnode : ∀ o < maxOrder, ∀ a ∈ L o, ∀ k < pageSize, a + k ≠ addr := by
    intro o ho a hal k hk he
    have hpage : addr / pageSize = a / pageSize := by
      obtain ⟨q, hq⟩ := (hr.good o ho a hal).page
      rw [← he, hq, Nat.mul_add_div pageSize_pos, Nat.mul_div_cancel_left _ pageSize_pos,
        Nat.div_eq_of_lt hk, add_zero]
    refine Finset.disjoint_left.mp h.exclusive ?_ ha
    rw [hpage]
    exact blockPages_subset_freeSet ho hal (head_mem_blockPages o a)
  have hword : ∀ b < st.buddy.coverEnd, st.buddy.headWord b ≠ addr := by
    intro b hb he
    refine (h.good _ ha).notWord hr.config hb (Nat.mod_lt addr pageSize_pos) ?_
    rw [he, Nat.div_add_mod']
  have hlt : ∀ k : Fin 3, k.val * 8 < pageSize := by decide
  have hsame := same_store st.buddy addr v
  have hrep : (st.buddy.store addr v).Rep L :=
    { head := hr.head
      chain := fun o ho => (hr.chain o ho).congr
        (fun x hx => hmem _ (hnode o ho x hx 0 (hlt 0)))
        (fun x hx => hmem _ (hnode o ho x hx 8 (hlt 1)))
      order := fun o ho a hal =>
        (hmem _ (hnode o ho a hal 16 (hlt 2))).trans (hr.order o ho a hal)
      nodup := hr.nodup
      good := fun o ho a hal => (hr.good o ho a hal).same hsame
      disj := hr.disj
      bits := fun a hc hpa => by
        have hb : (st.buddy.store addr v).headBit a = st.buddy.headBit a :=
          congrArg (Nat.testBit · _) (hmem _ (hword a hc))
        rw [hb]
        exact hr.bits a hc hpa
      config := hr.config.same hsame }
  exact h.of_frame ⟨hrep, h.pool.count, h.pool.merged⟩ hsame.frame h.exclusive fun _ => Iff.rfl

/-- A report keeps the invariant. -/
theorem Inv.refused (addr order : Nat) (why : BadFree) :
    Inv ranges regions ⟨st.buddy.reportBadFree addr order why, st.allocated⟩ L :=
  h.of_frame ⟨h.pool.rep.counters _ _ _ _ le_rfl h.pool.rep.config.ram, h.pool.count, h.pool.merged⟩
    (by constructor <;> rfl) h.exclusive fun _ => Iff.rfl

/-- A permitted `free` moves its pages from allocated to free; past the top
order it is refused. -/
theorem Inv.free {addr order : Nat}
    (hal : pageSize <<< order ∣ addr) (hsub : blockPages order addr ⊆ st.allocated) :
    ∃ st' L', st.step (.free addr order) = some st' ∧ Inv ranges regions st' L' := by
  by_cases ho : order < maxOrder
  · have hdis : Disjoint (blockPages order addr) (freeSet L) := h.exclusive.symm.mono_left hsub
    have hg := goodBlock_of_pages h.pool.rep.config hal fun p hp => h.good p (hsub hp)
    obtain ⟨b, L', hb, hp, hfs, hf⟩ := free_pool h.pool ho hg hdis
    refine ⟨_, L', by rw [State.step, hb]; rfl, h.of_frame hp hf ?_ fun p => ?_⟩
    · rw [if_pos ho, hfs, Finset.disjoint_union_left]
      exact ⟨Finset.disjoint_sdiff, h.exclusive.mono_right Finset.sdiff_subset⟩
    rw [if_pos ho, hfs]
    by_cases hb : p ∈ blockPages order addr
    · simp [hb, hsub hb]
    · simp [hb]
  · have hcheck : st.buddy.freeCheck addr order = some .order := by
      rw [freeCheck, if_pos (by omega)]
    refine ⟨_, L, by rw [State.step, Buddy.free, hcheck]; rfl, ?_⟩
    rw [if_neg ho]
    exact h.refused addr order .order

/-- **One call.** A permitted call returns and keeps the invariant. -/
theorem Inv.step {c : Call} (hc : Permitted st c) :
    ∃ st' L', st.step c = some st' ∧ Inv ranges regions st' L' := by
  cases c with
  | alloc order =>
    obtain ⟨r, hr, hout⟩ := allocUntracked_pool h.pool order
    obtain ⟨L', hL, -⟩ := h.handOut hout.outcome
    exact ⟨_, L', by rw [State.step, hr]; rfl, hL⟩
  | allocBelow order limit =>
    obtain ⟨r, hr, hout⟩ := allocBelowUntracked_pool h.pool order limit
    obtain ⟨L', hL, -⟩ := h.handOut hout.outcome
    exact ⟨_, L', by rw [State.step, hr]; rfl, hL⟩
  | free => exact h.free hc.1 hc.2
  | store => exact ⟨_, L, rfl, h.store hc⟩

end

/-- **Every run** keeps the invariant. -/
theorem inv_of_reachable {mem : Nat → Nat} (hlen : ranges.length ≤ maxReserved)
    (hd : RegionsDisjoint regions)
    (hst : Reachable (Booted mem ranges regions) Permitted State.step st) :
    ∃ L, Inv ranges regions st L := by
  obtain ⟨b, L, hb, hinv⟩ := boot_inv mem hlen hd
  refine hst.invariant (P := fun st => ∃ L, Inv ranges regions st L) ?_ ?_
  · rintro ⟨b', al⟩ ⟨hb', rfl⟩
    cases hb.symm.trans hb'
    exact ⟨L, hinv⟩
  · intro s c s' ⟨L, h⟩ hc hs
    obtain ⟨s'', L', hs'', h'⟩ := h.step hc
    cases hs.symm.trans hs''
    exact ⟨L', h'⟩

/-- **The buddy allocator's representation invariant.** Boot succeeds on every
memory map of disjoint Available regions with up to eight reserved ranges, and
in every state reached by permitted calls the lists, bits, blocks and counters
agree and the next permitted call returns. -/
theorem buddy_wellFormed (mem : Nat → Nat) (ranges : List PhysRange)
    (regions : List MemoryRegion) (hlen : ranges.length ≤ maxReserved)
    (hd : RegionsDisjoint regions) : (∃ st, Booted mem ranges regions st) ∧
    ∀ st, Reachable (Booted mem ranges regions) Permitted State.step st →
      (∃ L, WellFormed ranges regions st L) ∧
      ∀ c, Permitted st c → ∃ st', st.step c = some st' := by
  obtain ⟨b, L, hb, -⟩ := boot_inv mem hlen hd
  refine ⟨⟨⟨b, ∅⟩, hb, rfl⟩, fun st hst => ?_⟩
  obtain ⟨L, h⟩ := inv_of_reachable hlen hd hst
  refine ⟨⟨L, h.wellFormed⟩, fun c hc => ?_⟩
  obtain ⟨st', -, hs, -⟩ := h.step hc
  exact ⟨st', hs⟩

/-- A machine with RAM on both sides of a hole and a reserved kernel image. -/
theorem buddy_wellFormed_two_regions :
    let ranges : List PhysRange := [⟨0x200000, 0x2a5123, by norm_num⟩]
    let regions : List MemoryRegion :=
      [⟨0, 0x9fc00, .available, by norm_num⟩, ⟨0x9fc00, 0x400, .reserved, by norm_num⟩,
        ⟨0x100000, 0x7f00000, .available, by norm_num⟩]
    ranges.length ≤ maxReserved ∧ RegionsDisjoint regions ∧
      (∃ st, Booted (fun _ => 0) ranges regions st) ∧
      ∀ st, Reachable (Booted (fun _ => 0) ranges regions) Permitted State.step st →
        (∃ L, WellFormed ranges regions st L) ∧
        ∀ c, Permitted st c → ∃ st', st.step c = some st' := by
  intro ranges regions
  have hd : RegionsDisjoint regions := by
    simp [RegionsDisjoint, regions]
    omega
  exact ⟨by decide, hd, buddy_wellFormed (fun _ => 0) ranges regions (by decide) hd⟩

/-! ### Wrong frees -/

/-- A block no caller may free: misaligned, off the managed RAM, across a reserved range, or
with a page that is free already. -/
def Wrong (ranges : List PhysRange) (regions : List MemoryRegion) (st : State)
    (addr order : Nat) : Prop :=
  ¬pageSize <<< order ∣ addr ∨
  (∃ p ∈ blockPages order addr, ∀ r ∈ regions, ¬r.HasPage p) ∨
  (∃ r ∈ ranges, r.start < r.stop ∧ addr < r.stop ∧ r.start < addr + (pageSize <<< order)) ∨
  ∃ p ∈ blockPages order addr, Usable ranges regions st.buddy p ∧ p ∉ st.allocated

/-- What shows a wrong free: its order and bounds, the ranges set aside, or that it is the first
page of a listed block and has a bit in the bitmap. -/
def Shown (ranges : List PhysRange) (regions : List MemoryRegion) (st : State)
    (addr order : Nat) : Prop :=
  maxOrder ≤ order ∨ addr = 0 ∨ ¬pageSize <<< order ∣ addr ∨
  (st.buddy.physEnd ≠ 0 ∧ st.buddy.physEnd < addr + (pageSize <<< order)) ∨
  (∃ r ∈ ranges, r.start < r.stop ∧ addr < r.stop ∧ r.start < addr + (pageSize <<< order)) ∨
  (st.buddy.bitmapPhys < st.buddy.bitmapPhysEnd ∧ addr < st.buddy.bitmapPhysEnd ∧
    st.buddy.bitmapPhys < addr + (pageSize <<< order)) ∨
  addr < st.buddy.coverEnd ∧ ∃ L, WellFormed ranges regions st L ∧ ∃ o < maxOrder, addr ∈ L o

/-- A call a caller may make, or a wrong free. -/
inductive Attempt
  | call (c : Call)
  | wrongFree (addr order : Nat)

/-- A wrong free gives up no page that a caller holds. -/
def State.attempt (st : State) : Attempt → Option State
  | .call c => st.step c
  | .wrongFree addr order => (st.buddy.free addr order).map (⟨·, st.allocated⟩)

def Attempted (ranges : List PhysRange) (regions : List MemoryRegion) (st : State) : Attempt → Prop
  | .call c => Permitted st c
  | .wrongFree addr order =>
    Wrong ranges regions st addr order ∧ Shown ranges regions st addr order

/-- `free` reports what is shown and does nothing else. -/
theorem Inv.free_shown (h : Inv ranges regions st L) {addr order : Nat}
    (hsh : Shown ranges regions st addr order) :
    ∃ why, st.buddy.free addr order = some (st.buddy.reportBadFree addr order why) := by
  cases hc : st.buddy.freeCheck addr order with
  | some why => exact ⟨why, by rw [Buddy.free, hc]⟩
  | none =>
    -- past all the checks, each way in which the free could be seen to be wrong is excluded
    simp only [freeCheck] at hc
    split_ifs at hc with hord hnull hmask hend hres hbit
    have hal : pageSize <<< order ∣ addr := by
      rw [blockSize_eq]
      exact Dyadic.and_mask_eq_zero.mp (by rw [← blockSize_eq]; omega)
    have hclear := Bool.eq_false_of_not_eq_true hres
    rcases hsh with hs | hs | hs | hs | ⟨r, hr, hlt, hs⟩ | ⟨hlt, hs⟩ | ⟨hcov, L', hwf, hs⟩
    · exact absurd hs hord
    · exact absurd hs hnull
    · exact absurd hal hs
    · exact absurd hs hend
    · have := h.clear_range hclear hr hlt
      omega
    · have := clear_bitmap hclear hlt
      omega
    · have hpage : pageSize ∣ addr := (Dvd.intro _ (Nat.shiftLeft_eq ..).symm).trans hal
      exact absurd (by simp [covered, hcov, (hwf.headBits addr hcov hpage).mpr hs]) hbit

/-- **Wrong frees that show are refused without damage.** In every state that permitted calls and
shown wrong frees reach, such a free changes no list, no bitmap word and not the number of free pages. -/
theorem wrong_free_refused (mem : Nat → Nat) (ranges : List PhysRange)
    (regions : List MemoryRegion) (hlen : ranges.length ≤ maxReserved)
    (hd : RegionsDisjoint regions) (st : State)
    (hst : Reachable (Booted mem ranges regions) (Attempted ranges regions) State.attempt st)
    (addr order : Nat) : Wrong ranges regions st addr order → Shown ranges regions st addr order →
      ∃ b, st.buddy.free addr order = some b ∧ b.freeLists = st.buddy.freeLists ∧
        b.mem = st.buddy.mem ∧ b.freePages = st.buddy.freePages := by
  have hinv : ∃ L, Inv ranges regions st L := by
    refine hst.invariant (P := fun st => ∃ L, Inv ranges regions st L) ?_ ?_
    · exact fun s hs => inv_of_reachable hlen hd (.start hs)
    rintro s (c | ⟨addr, order⟩) s' ⟨L, h⟩ hc hs
    · obtain ⟨s'', L', hs'', h'⟩ := h.step hc
      cases hs.symm.trans hs''
      exact ⟨L', h'⟩
    · obtain ⟨why, he⟩ := h.free_shown hc.2
      simp only [State.attempt, he, Option.map_some, Option.some.injEq] at hs
      exact ⟨L, hs ▸ h.refused addr order why⟩
  obtain ⟨L, h⟩ := hinv
  intro _ hsh
  obtain ⟨why, he⟩ := h.free_shown hsh
  exact ⟨_, he, rfl, rfl, rfl⟩

/-- Four pages of RAM: the bitmap takes the first and the last two are one block. -/
def fourPages : List MemoryRegion := [⟨0x100000, 0x4000, .available, by norm_num⟩]

/-- Two pages of it are free, but no block of order one starts between them. -/
theorem wrong_free_refused_misaligned : ∃ st : State, Booted (fun _ => 0) [] fourPages st ∧
    ∃ b, st.buddy.free 0x101000 1 = some b ∧ b.freeLists = st.buddy.freeLists ∧
      b.mem = st.buddy.mem ∧ b.freePages = st.buddy.freePages := by
  have hd : RegionsDisjoint fourPages := by
    simp [RegionsDisjoint, fourPages]
  have hlen : ([] : List PhysRange).length ≤ maxReserved := Nat.zero_le _
  obtain ⟨b, -, hb, -⟩ := boot_inv (fun _ => 0) hlen hd
  have hmis : ¬pageSize <<< 1 ∣ 0x101000 := by decide
  exact ⟨⟨b, ∅⟩, ⟨hb, rfl⟩, wrong_free_refused _ _ _ hlen hd _ (.start ⟨hb, rfl⟩) _ _
    (.inl hmis) (.inr (.inr (.inl hmis)))⟩

/-- The block's second page is free too, but no head of a list: freeing it is accepted, and
the allocator counts a page more than the machine has. -/
theorem merged_page_freed : ∃ st, Reachable (Booted (fun _ => 0) [] fourPages)
    (Attempted [] fourPages) State.attempt st ∧ Wrong [] fourPages st 0x103000 0 ∧
    ∃ b, st.buddy.free 0x103000 0 = some b ∧ b.freePages ≠ st.buddy.freePages := by
  have hrun : ((boot (fun _ => 0) [] fourPages).any fun b =>
      decide (b.bitmapPhysEnd ≤ 0x103 * pageSize) &&
        (b.free 0x103000 0).any fun b' => b'.freePages != b.freePages) = true := by
    decide +kernel
  obtain ⟨b, hb, hp⟩ := (Option.any_eq_true _ _).mp hrun
  rw [Bool.and_eq_true, Option.any_eq_true, decide_eq_true_eq] at hp
  obtain ⟨hend, b', hb', hne⟩ := hp
  have husable : Usable [] fourPages b 0x103 :=
    ⟨⟨_, List.mem_singleton_self _, rfl, by decide, by decide, by decide⟩, nofun,
      fun _ h => absurd h.1 (by omega)⟩
  exact ⟨⟨b, ∅⟩, .start ⟨hb, rfl⟩, .inr (.inr (.inr ⟨0x103, head_mem_blockPages 0 _, husable,
    Finset.notMem_empty _⟩)), b', hb', by simpa using hne⟩

end Buddy

end Leandros.Mm
