import Leandros.Lib.DList
import Leandros.Lib.Dyadic
import Leandros.Mm.Buddy.Model

/-!
# Leandros.Mm.Buddy.Lists

The free lists as they sit in memory. `Rep s L` says that the allocator state
`s` represents the lists `L : order → addresses`: the link, order and bitmap
words agree with `L`, and the blocks of `L` are aligned, inside managed RAM and
pairwise disjoint.

The list operations are characterised once each over `Rep`, and nothing above
this module unfolds them:

* `pushFront_rep` — a block joins its list;
* `unlink_rep` — a listed block leaves its list;
* `popHead_eq_unlink` — the inline pop of `alloc_untracked` is `unlink`;
* `tryRemove_rep` — `try_remove` succeeds exactly on listed blocks;
* `walk_rep` — a list walk finds the first node that satisfies its test.
-/

namespace Leandros.Mm

open Function (update update_apply update_of_ne update_self)

open DList

/-- The pages of the block of order `o` at address `a`. -/
def blockPages (o a : Nat) : Finset Nat := Finset.Ico (a / pageSize) (a / pageSize + 2 ^ o)

theorem pageSize_eq : pageSize = 2 ^ 12 := rfl

theorem pageSize_pos : 0 < pageSize := by decide

theorem blockSize_eq (o : Nat) : pageSize <<< o = 2 ^ (12 + o) := by
  rw [Nat.shiftLeft_eq, pageSize_eq, pow_add]

theorem blockSize_mul (o : Nat) : pageSize <<< o = pageSize * 2 ^ o := Nat.shiftLeft_eq _ _

theorem blockSize_pos (o : Nat) : 0 < pageSize <<< o := by
  rw [blockSize_eq]
  positivity

theorem pageSize_le_blockSize (o : Nat) : pageSize ≤ pageSize <<< o := by
  rw [blockSize_mul]
  exact Nat.le_mul_of_pos_right _ (by positivity)

theorem pageSize_dvd_blockSize (o : Nat) : pageSize ∣ pageSize <<< o := by
  rw [blockSize_mul]
  exact dvd_mul_right _ _

theorem mem_blockPages {o a p : Nat} :
    p ∈ blockPages o a ↔ a / pageSize ≤ p ∧ p < a / pageSize + 2 ^ o := Finset.mem_Ico

theorem head_mem_blockPages (o a : Nat) : a / pageSize ∈ blockPages o a :=
  mem_blockPages.mpr ⟨le_rfl, by have : 0 < 2 ^ o := by positivity
                                 omega⟩

theorem card_blockPages (o a : Nat) : (blockPages o a).card = 2 ^ o := by
  simp [blockPages]

namespace Buddy

/-! ### What the list operations leave alone -/

/-- `s'` differs from `s` in memory and list heads at most. -/
structure Same (s s' : Buddy) : Prop where
  totalPages : s'.totalPages = s.totalPages
  freePages : s'.freePages = s.freePages
  physEnd : s'.physEnd = s.physEnd
  freeHeadPtr : s'.freeHeadPtr = s.freeHeadPtr
  coverEnd : s'.coverEnd = s.coverEnd
  bitmapPhys : s'.bitmapPhys = s.bitmapPhys
  bitmapPhysEnd : s'.bitmapPhysEnd = s.bitmapPhysEnd
  reserved : s'.reserved = s.reserved
  badFrees : s'.badFrees = s.badFrees
  reports : s'.reports = s.reports

namespace Same

variable {s s' s'' : Buddy}

theorem refl (s : Buddy) : Same s s := by constructor <;> rfl

theorem trans (h : Same s s') (h' : Same s' s'') : Same s s'' :=
  ⟨h'.1.trans h.1, h'.2.trans h.2, h'.3.trans h.3, h'.4.trans h.4, h'.5.trans h.5,
    h'.6.trans h.6, h'.7.trans h.7, h'.8.trans h.8, h'.9.trans h.9, h'.10.trans h.10⟩

theorem overlapsReserved (h : Same s s') (a n : Nat) :
    s'.overlapsReserved a n = s.overlapsReserved a n := by
  simp [Buddy.overlapsReserved, h.bitmapPhys, h.bitmapPhysEnd, h.reserved]

theorem headWord (h : Same s s') (a : Nat) : s'.headWord a = s.headWord a := by
  simp [Buddy.headWord, h.freeHeadPtr]

end Same

theorem same_store (s : Buddy) (a v : Nat) : Same s (s.store a v) := by
  constructor <;> rfl

theorem same_headBitSet (s : Buddy) (a : Nat) (v : Bool) : Same s (s.headBitSet a v) := by
  unfold headBitSet
  split
  · exact same_store _ _ _
  · exact .refl _

/-! ### Blocks and the bitmap's place -/

/-- An aligned block inside managed RAM that touches nothing reserved. -/
structure GoodBlock (s : Buddy) (o a : Nat) : Prop where
  aligned : pageSize <<< o ∣ a
  low : lowReservedEnd ≤ a
  ram : a + (pageSize <<< o) ≤ s.physEnd
  clear : s.overlapsReserved a (pageSize <<< o) = false

variable {s : Buddy}

theorem GoodBlock.page {o a : Nat} (h : s.GoodBlock o a) : pageSize ∣ a :=
  (pageSize_dvd_blockSize o).trans h.aligned

theorem GoodBlock.ne_zero {o a : Nat} (h : s.GoodBlock o a) : a ≠ 0 := by
  have h1 := h.low
  have h2 : 0 < lowReservedEnd := by decide
  omega

theorem GoodBlock.same {s' : Buddy} {o a : Nat} (h : s.GoodBlock o a) (hs : Same s s') :
    s'.GoodBlock o a :=
  ⟨h.aligned, h.low, hs.physEnd ▸ h.ram, (hs.overlapsReserved _ _).trans h.clear⟩

/-- The boot-time configuration: every bitmap word lies inside the carved-out
range, and no recorded range is turned around. -/
structure ConfigOk (s : Buddy) : Prop where
  ptr : s.freeHeadPtr = s.bitmapPhys
  words : ∀ a < s.coverEnd, s.headWord a + 8 ≤ s.bitmapPhysEnd
  ranges : ∀ r ∈ (s.bitmapPhys, s.bitmapPhysEnd) :: s.reserved, r.1 ≤ r.2
  ram : s.physEnd ≤ 2 ^ 63

theorem ConfigOk.same {s' : Buddy} (h : s.ConfigOk) (hs : Same s s') : s'.ConfigOk := by
  refine ⟨by rw [hs.freeHeadPtr, hs.bitmapPhys, h.ptr], fun a ha => ?_, ?_, ?_⟩
  · rw [hs.headWord, hs.bitmapPhysEnd]
    exact h.words a (hs.coverEnd ▸ ha)
  · rw [hs.bitmapPhys, hs.bitmapPhysEnd, hs.reserved]
    exact h.ranges
  · rw [hs.physEnd]
    exact h.ram

theorem overlapsRange_eq_false {a n lo hi : Nat} (h : lo < hi) :
    overlapsRange a n (lo, hi) = false ↔ hi ≤ a ∨ a + n ≤ lo := by
  simp only [overlapsRange, Bool.and_eq_false_iff, bne_eq_false_iff_eq, decide_eq_false_iff_not]
  omega

variable {b x o' : Nat} {v : Bool}

/-- The words of a block's first page are not bitmap words. -/
theorem GoodBlock.notWord {o a k : Nat} (h : s.GoodBlock o a) (hb : s.ConfigOk)
    (hc : b < s.coverEnd) (hk : k < pageSize) : s.headWord b ≠ a + k := by
  have h1 := hb.words b hc
  have h2 : s.bitmapPhys ≤ s.headWord b := by
    rw [← hb.ptr]
    exact Nat.le_add_right _ _
  have h3 := h.clear
  simp only [overlapsReserved, Bool.or_eq_false_iff] at h3
  have h4 := (overlapsRange_eq_false (by omega)).mp h3.1
  have h5 := pageSize_le_blockSize o
  omega

/-! ### Words of distinct pages -/

theorem word_ne {a i j : Nat} (ha : pageSize ∣ a) (hb : pageSize ∣ b) (hi : i < pageSize)
    (hj : j < pageSize) (h : a ≠ b ∨ i ≠ j) : a + i ≠ b + j := by
  obtain ⟨m, rfl⟩ := ha
  obtain ⟨n, rfl⟩ := hb
  simp only [pageSize] at *
  omega

@[simp] theorem store_mem (s : Buddy) (a v x : Nat) :
    (s.store a v).mem x = if x = a then v else s.mem x := by
  simp [store, update_apply]

@[simp] theorem setHead_mem (s : Buddy) (o : Nat) (h : Option Nat) : (s.setHead o h).mem = s.mem :=
  rfl

@[simp] theorem store_freeLists (s : Buddy) (a v : Nat) :
    (s.store a v).freeLists = s.freeLists := rfl

@[simp] theorem setHead_freeLists (s : Buddy) (o : Nat) (h : Option Nat) :
    (s.setHead o h).freeLists = update s.freeLists o h := rfl

@[simp] theorem headBitSet_freeLists (s : Buddy) (a : Nat) (v : Bool) :
    (s.headBitSet a v).freeLists = s.freeLists := by
  unfold headBitSet
  split <;> rfl

/-- A word outside the bitmap survives a bitmap update. -/
theorem headBitSet_mem {a : Nat}
    (h : a < s.coverEnd → s.headWord a ≠ x) : (s.headBitSet a v).mem x = s.mem x := by
  unfold headBitSet
  split
  · next hc =>
    rw [store_mem, if_neg]
    exact fun e => h (by simpa [covered] using hc) e.symm
  · rfl

/-- Setting one bit changes that bit only. -/
theorem headBit_headBitSet {a : Nat} (ha : a < s.coverEnd)
    (hpa : pageSize ∣ a) (hpb : pageSize ∣ b) :
    (s.headBitSet a v).headBit b = if b = a then v else s.headBit b := by
  have hw : ∀ x y, (s.store x y).headWord b = s.headWord b := fun _ _ => rfl
  have hlt : b / pageSize % 64 < 64 := Nat.mod_lt _ (by norm_num)
  have hpage : b = a ↔ b / pageSize = a / pageSize := by
    constructor
    · rintro rfl; rfl
    · intro h
      rw [← Nat.div_mul_cancel hpa, ← Nat.div_mul_cancel hpb, h]
  unfold headBitSet headBit
  rw [if_pos (by simpa [covered] using ha), hw, store_mem]
  -- the bit is in the word that changed, or in another one
  by_cases hword : s.headWord b = s.headWord a
  · rw [if_pos hword, hword]
    have hidx : b / pageSize / 64 = a / pageSize / 64 := by
      simp only [headWord] at hword
      omega
    have hbit : (a / pageSize % 64 = b / pageSize % 64) ↔ b = a := by
      omega
    cases v
    · simp only [Bool.false_eq_true, if_false]
      rw [Dyadic.testBit_clear hlt]
      by_cases h : b = a <;> simp [hbit, h]
    · simp only [if_true]
      rw [Nat.testBit_or, Nat.one_shiftLeft, Nat.testBit_two_pow]
      by_cases h : b = a <;> simp [hbit, h]
  · rw [if_neg hword, if_neg (fun h => hword (by rw [h]))]

/-! ### The representation relation -/

/-- The state `s` represents the free lists `L`. -/
structure Rep (s : Buddy) (L : Nat → List Nat) : Prop where
  head : ∀ o < maxOrder, s.freeLists o = (L o).head?
  chain : ∀ o < maxOrder, Chain s.nodeNext s.nodePrev 0 (L o)
  order : ∀ o < maxOrder, ∀ a ∈ L o, s.nodeOrder a = o
  nodup : ∀ o < maxOrder, (L o).Nodup
  good : ∀ o < maxOrder, ∀ a ∈ L o, s.GoodBlock o a
  disj : ∀ o < maxOrder, ∀ o' < maxOrder, ∀ a ∈ L o, ∀ a' ∈ L o', o ≠ o' ∨ a ≠ a' →
    Disjoint (blockPages o a) (blockPages o' a')
  bits : ∀ a < s.coverEnd, pageSize ∣ a → (s.headBit a = true ↔ ∃ o < maxOrder, a ∈ L o)
  config : s.ConfigOk

variable {s s' : Buddy} {L : Nat → List Nat} {o a : Nat}

/-- A block joins its list. -/
theorem mem_push : b ∈ update L o (a :: L o) o' ↔ (b = a ∧ o' = o) ∨ b ∈ L o' := by
  by_cases he : o' = o
  · subst he
    simp
  · simp [he]

/-- A block leaves its list. -/
theorem mem_unlist (hnd : (L o).Nodup) :
    b ∈ update L o ((L o).erase a) o' ↔ b ∈ L o' ∧ (o' ≠ o ∨ b ≠ a) := by
  by_cases he : o' = o
  · subst he
    rw [update_self, hnd.mem_erase_iff]
    simp [and_comm]
  · simp [he]

/-- A page heads a block of one list only. -/
theorem Rep.order_unique (h : s.Rep L) (ho : o < maxOrder) (ho' : o' < maxOrder)
    (ha : a ∈ L o) (ha' : a ∈ L o') : o = o' := by
  by_contra hne
  have hd := h.disj o ho o' ho' a ha a ha' (.inl hne)
  exact Finset.disjoint_left.mp hd (head_mem_blockPages o a) (head_mem_blockPages o' a)

theorem Rep.zero_notMem (h : s.Rep L) (ho : o < maxOrder) : 0 ∉ L o :=
  fun h0 => (h.good o ho 0 h0).ne_zero rfl

/-- The links of a listed node pass `check_links`. -/
theorem Rep.linkOk_of_mem (h : s.Rep L) (ho : o < maxOrder) (ha : a ∈ L o) : s.linkOk a = true := by
  have hg := h.good o ho a ha
  have h1 := hg.ram
  have h2 := pageSize_le_blockSize o
  have h3 := pageSize_pos
  have hz : a &&& (pageSize - 1) = 0 := by
    rw [pageSize_eq]
    exact Dyadic.and_mask_eq_zero.mpr hg.page
  simp only [linkOk, hz, Bool.or_eq_true, Bool.and_eq_true, beq_iff_eq, decide_eq_true_eq]
  exact .inr ⟨trivial, by omega⟩

@[simp] theorem linkOk_zero (s : Buddy) : s.linkOk 0 = true := by simp [linkOk]

theorem Rep.linkOk_next (h : s.Rep L) (ho : o < maxOrder) (ha : a ∈ L o) :
    s.linkOk (s.nodeNext a) = true := by
  rcases (h.chain o ho).next_mem ha with h0 | hm
  · rw [h0, linkOk_zero]
  · exact h.linkOk_of_mem ho hm

theorem Rep.linkOk_prev (h : s.Rep L) (ho : o < maxOrder) (ha : a ∈ L o) :
    s.linkOk (s.nodePrev a) = true := by
  rcases (h.chain o ho).prev_mem ha with h0 | hm
  · rw [h0, linkOk_zero]
  · exact h.linkOk_of_mem ho hm

theorem checkLinks_eq_some {next prev : Nat} (hn : s.linkOk next = true)
    (hp : s.linkOk prev = true) : s.checkLinks next prev = some () := by
  simp [checkLinks, hn, hp]

/-! ### Pushing a block -/

theorem same_pushFront (s : Buddy) (o a : Nat) : Same s (s.pushFront o a) := by
  unfold pushFront
  cases s.freeLists o
  all_goals
    refine .trans ?_ ((same_headBitSet _ _ _).trans (by constructor <;> rfl))
    constructor <;> rfl

theorem pushFront_freeLists (s : Buddy) (o a : Nat) :
    (s.pushFront o a).freeLists = update s.freeLists o (some a) := by
  unfold pushFront
  cases s.freeLists o <;> simp [nodeSetNext, nodeSetPrev, nodeSetOrder]

/-- The words `push_front` writes, seen from a word outside the bitmap. -/
theorem pushFront_mem (hx : a < s.coverEnd → s.headWord a ≠ x) : (s.pushFront o a).mem x =
      if s.freeLists o ≠ none ∧ x = (s.freeLists o).getD 0 + 8 then a else if x = a + 16 then o
      else if x = a + 8 then 0 else if x = a then (s.freeLists o).getD 0 else s.mem x := by
  unfold pushFront
  cases hh : s.freeLists o
  all_goals
    simp only [setHead_mem]
    rw [headBitSet_mem (by exact hx)]
    simp [nodeSetNext, nodeSetPrev, nodeSetOrder]

/-- A state with the bits of `s` gets one set. -/
theorem headBit_set_of_same {t : Buddy} (hst : Same s t) (hb : b < s.coverEnd)
    (hpa : pageSize ∣ a) (hpb : pageSize ∣ b) (hmem : t.mem (s.headWord b) = s.mem (s.headWord b)) :
    (t.headBitSet a v).headBit b = if b = a then v else s.headBit b := by
  have htb : t.headBit b = s.headBit b := by
    simp [headBit, hst.headWord, hmem]
  by_cases hc : a < s.coverEnd
  · rw [headBit_headBitSet (hst.coverEnd ▸ hc) hpa hpb, htb]
  · have hne : b ≠ a := by omega
    have hnc : t.covered a = false := by simp [covered, hst.coverEnd]; omega
    simp [headBitSet, hnc, hne, htb]

/-- The free-head bit of `addr` is the only one `push_front` changes. -/
theorem pushFront_headBit (hb : b < s.coverEnd) (hpb : pageSize ∣ b) (hpa : pageSize ∣ a)
    (hw : ∀ x < s.coverEnd, ∀ k < pageSize, s.headWord x ≠ a + k)
    (hh : ∀ h, s.freeLists o = some h → ∀ x < s.coverEnd, s.headWord x ≠ h + 8) :
    (s.pushFront o a).headBit b = if b = a then true else s.headBit b := by
  have e0 := hw b hb 0 (by decide)
  have e8 := hw b hb 8 (by decide)
  have e16 := hw b hb 16 (by decide)
  simp only [add_zero] at e0
  unfold pushFront
  cases hd : s.freeLists o with
  | none =>
    refine headBit_set_of_same (by constructor <;> rfl) hb hpa hpb ?_
    simp [nodeSetNext, nodeSetPrev, nodeSetOrder, e0, e8, e16]
  | some h =>
    refine headBit_set_of_same (by constructor <;> rfl) hb hpa hpb ?_
    simp [nodeSetNext, nodeSetPrev, nodeSetOrder, e0, e8, e16, hh h hd b hb]

/-- The node of a block after `push_front`: it is the head of the list, or its links are as before,
but for the link of the old head to the new one. -/
theorem pushFront_node (hc : s.ConfigOk) (hg : s.GoodBlock o a)
    (hh : ∀ y, s.freeLists o = some y → pageSize ∣ y) {b o' : Nat} (hb : s.GoodBlock o' b) :
    (s.pushFront o a).nodeNext b = (if b = a then (s.freeLists o).getD 0 else s.nodeNext b) ∧
      (s.pushFront o a).nodePrev b = (if s.freeLists o ≠ none ∧ b = (s.freeLists o).getD 0 then a
          else if b = a then 0 else s.nodePrev b) ∧
      (s.pushFront o a).nodeOrder b = if b = a then o else s.nodeOrder b := by
  have hx : ∀ k < pageSize, a < s.coverEnd → s.headWord a ≠ b + k := fun k hk ha =>
    hb.notWord hc ha hk
  -- No other word of a node has the offset of a `prev` link.
  have nh : ∀ k < pageSize, 8 ≠ k →
      ¬(s.freeLists o ≠ none ∧ b + k = (s.freeLists o).getD 0 + 8) := by
    rintro k hk h8 ⟨hne, he⟩
    obtain ⟨y, hy⟩ := Option.ne_none_iff_exists'.mp hne
    rw [hy] at he
    exact word_ne hb.page (hh y hy) hk (by decide) (.inr h8.symm) he
  have ne : ∀ i j, i < pageSize → j < pageSize → i ≠ j → b + i ≠ a + j := fun i j hi hj h =>
    word_ne hb.page hg.page hi hj (.inr h)
  refine ⟨?_, ?_, ?_⟩
  · have h0 := pushFront_mem (o := o) (hx 0 (by decide))
    rw [if_neg (nh 0 (by decide) (by decide)), if_neg (ne 0 16 (by decide) (by decide) (by decide)),
      if_neg (ne 0 8 (by decide) (by decide) (by decide))] at h0
    exact h0
  · have n0 : b + 8 ≠ a := ne 8 0 (by decide) (by decide) (by decide)
    have n8 : b ≠ a + 8 := ne 0 8 (by decide) (by decide) (by decide)
    simp [nodePrev, pushFront_mem (hx 8 (by decide)), if_neg n0, if_neg n8]
  · have n0 : b + 16 ≠ a := ne 16 0 (by decide) (by decide) (by decide)
    simp only [nodeOrder, pushFront_mem (hx 16 (by decide)), if_neg n0, Nat.add_right_cancel_iff,
      if_neg (nh 16 (by decide) (by decide)), if_neg (ne 16 8 (by decide) (by decide) (by decide))]

/-- **Push.** A block disjoint from every listed one joins the list of its
order. -/
theorem pushFront_rep (h : s.Rep L) (ho : o < maxOrder) (hg : s.GoodBlock o a)
    (hd : ∀ o' < maxOrder, ∀ a' ∈ L o', Disjoint (blockPages o a) (blockPages o' a')) :
    (s.pushFront o a).Rep (update L o (a :: L o)) := by
  have hsame := same_pushFront s o a
  -- no listed block has this address: it would share a page
  have hfresh : ∀ o' < maxOrder, a ∉ L o' := fun o' ho' ha' =>
    Finset.disjoint_left.mp (hd o' ho' a ha') (head_mem_blockPages o a)
      (head_mem_blockPages o' a)
  have hne : ∀ o' < maxOrder, ∀ x ∈ L o', x ≠ a := fun o' ho' x hx hxa => hfresh o' ho' (hxa ▸ hx)
  have hheadMem : ∀ x, s.freeLists o = some x → x ∈ L o := by
    intro x hx
    rw [h.head o ho] at hx
    exact List.mem_of_mem_head? hx
  have hnode := @pushFront_node s o a h.config hg fun y hy => (h.good o ho y (hheadMem y hy)).page
  simp only [h.head o ho, ← List.headD_eq_head?_getD, ne_eq, List.head?_eq_none_iff] at hnode
  constructor
  case head =>
    intro o' ho'
    rw [pushFront_freeLists]
    by_cases he : o' = o <;> simp [he, h.head o' ho']
  case chain =>
    intro o' ho'
    by_cases he : o' = o
    · subst he
      rw [update_self]
      -- the old head gets its back link, the rest of the list is as it was
      refine ⟨?_, ?_, (h.chain o' ho').reroot (h.nodup o' ho') ?_ ?_⟩
      · rw [(hnode hg).2.1, if_neg, if_pos rfl]
        rintro ⟨hne, he⟩
        obtain ⟨y, l, hl⟩ := List.exists_cons_of_ne_nil hne
        rw [hl] at he
        exact hfresh o' ho' (by rw [hl]; simp [he])
      · rw [(hnode hg).1, if_pos rfl]
      · intro x hx
        rw [(hnode (h.good o' ho' x hx)).1, if_neg (hne o' ho' x hx)]
      · intro x hx
        rw [(hnode (h.good o' ho' x hx)).2.1]
        simp [hne o' ho' x hx, List.ne_nil_of_mem hx]
    · rw [update_of_ne he]
      -- another list has neither of the two nodes that were written
      refine (h.chain o' ho').congr (fun x hx => ?_) fun x hx => ?_
      · rw [(hnode (h.good o' ho' x hx)).1, if_neg (hne o' ho' x hx)]
      rw [(hnode (h.good o' ho' x hx)).2.1, if_neg, if_neg (hne o' ho' x hx)]
      rintro ⟨hne, hxh⟩
      obtain ⟨y, l, hl⟩ := List.exists_cons_of_ne_nil hne
      rw [hl] at hxh
      exact he (h.order_unique ho' ho hx (by rw [hl]; simp [hxh]))
  case order =>
    intro o' ho' b hb
    rcases mem_push.mp hb with ⟨rfl, rfl⟩ | hb'
    · rw [(hnode hg).2.2, if_pos rfl]
    · rw [(hnode (h.good o' ho' b hb')).2.2, if_neg (hne o' ho' b hb'), h.order o' ho' b hb']
  case nodup =>
    refine (Function.forall_update_iff L fun o' l => o' < maxOrder → l.Nodup).mpr ⟨fun _ => ?_, ?_⟩
    · exact List.nodup_cons.mpr ⟨hfresh o ho, h.nodup o ho⟩
    · exact fun o' _ => h.nodup o'
  case good =>
    intro o' ho' b hb
    rcases mem_push.mp hb with ⟨rfl, rfl⟩ | hb
    · exact hg.same hsame
    · exact (h.good o' ho' b hb).same hsame
  case disj =>
    intro o₁ h₁ o₂ h₂ b₁ hb₁ b₂ hb₂ hne
    rcases mem_push.mp hb₁ with ⟨rfl, rfl⟩ | hm₁
    · rcases mem_push.mp hb₂ with ⟨rfl, rfl⟩ | hm₂
      · simp at hne
      · exact hd o₂ h₂ b₂ hm₂
    · rcases mem_push.mp hb₂ with ⟨rfl, rfl⟩ | hm₂
      · exact (hd o₁ h₁ b₁ hm₁).symm
      · exact h.disj o₁ h₁ o₂ h₂ b₁ hm₁ b₂ hm₂ hne
  case bits =>
    intro b hb hpb
    rw [hsame.coverEnd] at hb
    -- the links are written into the blocks, and no bitmap word lies in one
    rw [pushFront_headBit hb hpb hg.page
      (fun x hx k hk => hg.notWord h.config hx hk)
      (fun y hy x hx => (h.good o ho y (hheadMem y hy)).notWord h.config hx (by decide))]
    by_cases hba : b = a
    · subst hba
      simp only [if_true, true_iff]
      exact ⟨o, ho, by simp⟩
    · rw [if_neg hba, h.bits b hb hpb]
      simp [mem_push, hba]
  case config => exact h.config.same hsame

/-! ### Unlinking a block -/

/-- The state `unlink` leaves behind once the links have passed their check. -/
def unlinked (s : Buddy) (o a : Nat) : Buddy :=
  let next := s.nodeNext a
  let prev := s.nodePrev a
  let s := if prev ≠ 0 then s.nodeSetNext prev next
    else s.setHead o (if next = 0 then none else some next)
  let s := if next ≠ 0 then s.nodeSetPrev next prev else s
  s.headBitSet a false

/-- Before the bitmap update, `unlink` only rewrites links and the list head. -/
theorem same_bypass (s : Buddy) (o next prev a : Nat) (h : Option Nat) :
    Same s (let t := if prev ≠ 0 then s.nodeSetNext prev next else s.setHead o h
      if next ≠ 0 then t.nodeSetPrev a prev else t) := by
  by_cases hp : prev = 0 <;> by_cases hn : next = 0 <;>
    (simp only [hp, hn, ne_eq, not_true_eq_false, not_false_eq_true, if_true, if_false]
     constructor <;> rfl)

theorem same_unlinked (s : Buddy) (o a : Nat) : Same s (s.unlinked o a) :=
  (same_bypass s o _ _ _ _).trans (same_headBitSet _ _ _)

theorem unlinked_freeLists (s : Buddy) (o a : Nat) : (s.unlinked o a).freeLists =
      if s.nodePrev a = 0 then
        update s.freeLists o (if s.nodeNext a = 0 then none else some (s.nodeNext a))
      else s.freeLists := by
  unfold unlinked
  by_cases hp : s.nodePrev a = 0 <;> by_cases hn : s.nodeNext a = 0 <;>
    simp [hp, hn, nodeSetNext, nodeSetPrev]

/-- The words `unlink` writes, seen from a word outside the bitmap. -/
theorem unlinked_mem (hx : a < s.coverEnd → s.headWord a ≠ x) : (s.unlinked o a).mem x =
      if s.nodeNext a ≠ 0 ∧ x = s.nodeNext a + 8 then s.nodePrev a
      else if s.nodePrev a ≠ 0 ∧ x = s.nodePrev a then s.nodeNext a else s.mem x := by
  unfold unlinked
  by_cases hp : s.nodePrev a = 0 <;> by_cases hn : s.nodeNext a = 0 <;>
    · simp only [hp, hn, ne_eq]
      rw [headBitSet_mem (by exact hx)]
      simp [nodeSetNext, nodeSetPrev]

/-- The free-head bit of `addr` is the only one `unlink` changes. -/
theorem unlinked_headBit (hb : b < s.coverEnd) (hpb : pageSize ∣ b) (hpa : pageSize ∣ a)
    (hn : s.nodeNext a ≠ 0 → ∀ x < s.coverEnd, s.headWord x ≠ s.nodeNext a + 8)
    (hp : s.nodePrev a ≠ 0 → ∀ x < s.coverEnd, s.headWord x ≠ s.nodePrev a) :
    (s.unlinked o a).headBit b = if b = a then false else s.headBit b := by
  refine headBit_set_of_same (same_bypass s o _ _ _ _) hb hpa hpb ?_
  · by_cases hp0 : s.nodePrev a = 0 <;> by_cases hn0 : s.nodeNext a = 0
    · simp [hp0, hn0]
    · simp [hp0, hn0, nodeSetPrev, hn hn0 b hb]
    · simp [hp0, hn0, nodeSetNext, hp hp0 b hb]
    · simp [hp0, hn0, nodeSetNext, nodeSetPrev, hp hp0 b hb, hn hn0 b hb]

variable (h : s.Rep L)
include h

variable (ho : o < maxOrder)
include ho

theorem unlink_eq (ha : a ∈ L o) :
    s.unlink o a = some (s.unlinked o a) := by
  simp only [unlink, checkLinks_eq_some (h.linkOk_next ho ha) (h.linkOk_prev ho ha)]
  rfl

/-- The inline pop of `alloc_untracked` is `unlink` of the head. -/
theorem popHead_eq_unlink (ha : s.freeLists o = some a) :
    s.popHead o a = s.unlink o a := by
  have hal : a ∈ L o := by
    rw [h.head o ho] at ha
    exact List.mem_of_mem_head? ha
  have hprev : s.nodePrev a = 0 := by
    rw [(h.chain o ho).prev_eq_root (h.zero_notMem ho) hal, List.headD_eq_head?_getD,
      ← h.head o ho, ha]
    rfl
  rw [unlink_eq h ho hal]
  simp only [popHead, unlinked, checkLinks_eq_some (h.linkOk_next ho hal) s.linkOk_zero, hprev]
  by_cases hn : s.nodeNext a = 0
  · simp [hn, setHead]
  · simp [hn, setHead, nodeSetPrev, store]

/-- The node of a listed address after `unlink`: only the neighbours' links to
`a` changed. -/
theorem unlinked_node (ha : a ∈ L o)
    (ho' : o' < maxOrder) (hb : b ∈ L o') :
    (s.unlinked o a).nodeNext b = (if b = s.nodePrev a then s.nodeNext a else s.nodeNext b) ∧
    (s.unlinked o a).nodePrev b = (if b = s.nodeNext a then s.nodePrev a else s.nodePrev b) ∧
    (s.unlinked o a).nodeOrder b = s.nodeOrder b := by
  have hgb := h.good o' ho' b hb
  -- a bitmap word is not a word of a listed block
  have hw : ∀ k < pageSize, a < s.coverEnd → s.headWord a ≠ b + k := fun k hk hc =>
    hgb.notWord h.config hc hk
  have hpage {x : Nat} (hx : x = 0 ∨ x ∈ L o) : pageSize ∣ x := by
    rcases hx with rfl | hm
    · exact dvd_zero _
    · exact (h.good o ho _ hm).page
  have hpn := hpage ((h.chain o ho).next_mem ha)
  have hpp := hpage ((h.chain o ho).prev_mem ha)
  have hb0 := hgb.ne_zero
  refine ⟨?_, ?_, ?_⟩
  · -- a word of a node is met only by the write to the same word of the same node
    have e : b ≠ s.nodeNext a + 8 :=
      word_ne (i := 0) hgb.page hpn (by decide) (by decide) (.inr (by decide))
    have := unlinked_mem (o := o) (fun hc => by simpa using hw 0 (by decide) hc)
    rw [nodeNext, this, if_neg (fun hh => e hh.2)]
    by_cases hbp : b = s.nodePrev a
    · rw [if_pos ⟨hbp ▸ hb0, hbp⟩, if_pos hbp]
    · rw [if_neg (fun hh => hbp hh.2), if_neg hbp, nodeNext]
  · have e : b + 8 ≠ s.nodePrev a :=
      word_ne (j := 0) hgb.page hpp (by decide) (by decide) (.inr (by decide))
    have := unlinked_mem (o := o) (fun hc => hw 8 (by decide) hc)
    rw [nodePrev, this]
    by_cases hbn : b = s.nodeNext a
    · rw [if_pos ⟨hbn ▸ hb0, by rw [hbn]⟩, if_pos hbn]
    · rw [if_neg (fun hh => hbn (Nat.add_right_cancel hh.2)), if_neg (fun hh => e hh.2),
        if_neg hbn, nodePrev]
  · have e1 : b + 16 ≠ s.nodeNext a + 8 :=
      word_ne hgb.page hpn (by decide) (by decide) (.inr (by decide))
    have e2 : b + 16 ≠ s.nodePrev a :=
      word_ne (j := 0) hgb.page hpp (by decide) (by decide) (.inr (by decide))
    have := unlinked_mem (o := o) (fun hc => hw 16 (by decide) hc)
    rw [nodeOrder, this, if_neg (fun hh => e1 hh.2), if_neg (fun hh => e2 hh.2), nodeOrder]

/-- **Unlink.** A listed block leaves its list, and the links pass their check. -/
theorem unlinked_rep (ha : a ∈ L o) :
    (s.unlinked o a).Rep (update L o ((L o).erase a)) := by
  have hsame := same_unlinked s o a
  have hg := h.good o ho a ha
  obtain ⟨l₁, l₂, hl⟩ := List.append_of_mem ha
  have hnd := h.nodup o ho
  have hal₁ : a ∉ l₁ := by
    rw [hl] at hnd
    exact fun hm => (List.disjoint_of_nodup_append hnd) hm (by simp)
  have herase : (L o).erase a = l₁ ++ l₂ := by
    rw [hl, List.erase_append_right _ hal₁, List.erase_cons_head]
  have hch := h.chain o ho
  rw [hl] at hch
  obtain ⟨hpa, hna, -⟩ := hch.split
  have hmem : ∀ {o' b}, b ∈ update L o ((L o).erase a) o' → b ∈ L o' := fun hb =>
    ((mem_unlist hnd).mp hb).1
  constructor
  case head =>
    intro o' ho'
    rw [unlinked_freeLists]
    by_cases he : o' = o
    · subst he
      rw [update_self, herase]
      by_cases hp0 : s.nodePrev a = 0
      · rw [if_pos hp0, update_self, hna]
        -- A null predecessor: `a` is the head, and its successor takes over.
        have hl₁ : l₁ = [] := by
          by_contra hne
          have hm := getLastD_mem hne 0
          rw [← hpa, hp0] at hm
          exact h.zero_notMem ho' (by rw [hl]; simp [hm])
        subst hl₁
        cases l₂ with
        | nil => simp
        | cons y =>
          have : y ≠ 0 := by
            rintro rfl
            exact h.zero_notMem ho' (by rw [hl]; simp)
          simp [this]
      · rw [if_neg hp0, h.head o' ho', hl]
        cases l₁ with
        | nil => exact absurd hpa hp0
        | cons => simp
    · rw [update_of_ne he]
      split
      · rw [update_of_ne he, h.head o' ho']
      · rw [h.head o' ho']
  case chain =>
    intro o' ho'
    by_cases he : o' = o
    · subst he
      rw [update_self, herase]
      refine hch.erase (hl ▸ hnd) (hl ▸ h.zero_notMem ho') (hl ▸ h.zero_notMem ho') ?_ ?_
      · intro x hx
        exact (unlinked_node h ho' ha ho' (by rw [hl]; simp at hx ⊢; tauto)).1
      · intro x hx
        exact (unlinked_node h ho' ha ho' (by rw [hl]; simp at hx ⊢; tauto)).2.1
    · rw [update_of_ne he]
      -- The links of another list do not mention `a`'s neighbours.
      refine (h.chain o' ho').congr ?_ ?_
      · intro x hx
        rw [(unlinked_node h ho ha ho' hx).1, if_neg]
        intro hxp
        rcases (h.chain o ho).prev_mem ha with h0 | hm
        · exact (h.good o' ho' x hx).ne_zero (hxp.trans h0)
        · exact he (h.order_unique ho' ho hx (hxp ▸ hm))
      · intro x hx
        rw [(unlinked_node h ho ha ho' hx).2.1, if_neg]
        intro hxn
        rcases (h.chain o ho).next_mem ha with h0 | hm
        · exact (h.good o' ho' x hx).ne_zero (hxn.trans h0)
        · exact he (h.order_unique ho' ho hx (hxn ▸ hm))
  case order =>
    intro o' ho' b hb
    rw [(unlinked_node h ho ha ho' (hmem hb)).2.2, h.order o' ho' b (hmem hb)]
  case nodup =>
    exact (Function.forall_update_iff L fun o' l => o' < maxOrder → l.Nodup).mpr
      ⟨fun _ => hnd.erase a, fun o' _ => h.nodup o'⟩
  case good => exact fun o' ho' b hb => (h.good o' ho' b (hmem hb)).same hsame
  case disj =>
    exact fun o₁ h₁ o₂ h₂ b₁ hb₁ b₂ hb₂ hne =>
      h.disj o₁ h₁ o₂ h₂ b₁ (hmem hb₁) b₂ (hmem hb₂) hne
  case bits =>
    intro b hb hpb
    rw [hsame.coverEnd] at hb
    rw [unlinked_headBit hb hpb hg.page]
    · by_cases hba : b = a
      · subst hba
        simp only [if_true, Bool.false_eq_true, false_iff, not_exists, not_and]
        intro o' ho' hm
        obtain ⟨hm, hne⟩ := (mem_unlist hnd).mp hm
        exact hne.elim (fun hne => hne (h.order_unique ho' ho hm ha)) (absurd rfl)
      · rw [if_neg hba, h.bits b hb hpb]
        simp only [mem_unlist hnd, hba, ne_eq, not_false_eq_true, or_true, and_true]
    · intro hn0 x hx
      rcases (h.chain o ho).next_mem ha with h0 | hm
      · exact absurd h0 hn0
      · exact (h.good o ho _ hm).notWord h.config hx (by decide)
    · intro hp0 x hx
      rcases (h.chain o ho).prev_mem ha with h0 | hm
      · exact absurd h0 hp0
      · simpa using (h.good o ho _ hm).notWord (k := 0) h.config hx (by decide)
  case config => exact h.config.same hsame

/-! ### Walking and searching -/

/-- Nodes of one list are distinct pages of RAM. -/
theorem Rep.length_le : (L o).length ≤ s.walkFuel := by
  have hinj : ((L o).map (· / pageSize)).Nodup := by
    refine (h.nodup o ho).map_on ?_
    intro x hx y hy hxy
    rw [← Nat.div_mul_cancel (h.good o ho x hx).page, hxy,
      Nat.div_mul_cancel (h.good o ho y hy).page]
  have hsub : ((L o).map (· / pageSize)).toFinset ⊆ Finset.range (s.physEnd / pageSize) := by
    intro p hp
    simp only [List.mem_toFinset, List.mem_map] at hp
    obtain ⟨x, hx, rfl⟩ := hp
    have h1 := (h.good o ho x hx).ram
    have h2 := pageSize_le_blockSize o
    rw [Finset.mem_range]
    simp only [pageSize] at *
    omega
  calc (L o).length = ((L o).map (· / pageSize)).toFinset.card := by
        rw [List.toFinset_card_of_nodup hinj, List.length_map]
    _ ≤ (Finset.range (s.physEnd / pageSize)).card := Finset.card_le_card hsub
    _ = s.walkFuel := by rw [Finset.card_range, walkFuel]

/-- A walk over a suffix of a free list finds its first match. -/
theorem walk_suffix (p : Nat → Bool) :
    ∀ (fuel : Nat) (l₁ l₂ : List Nat), L o = l₁ ++ l₂ → l₂.length ≤ fuel →
      s.walk p fuel l₂.head? = some (l₂.find? p) := by
  intro fuel
  induction fuel with
  | zero =>
    intro l₁ l₂ _ hlen
    obtain rfl : l₂ = [] := List.length_eq_zero_iff.mp (by omega)
    rfl
  | succ fuel ih =>
    intro l₁ l₂ hl hlen
    cases l₂ with
    | nil => rfl
    | cons x l₂ =>
      have hx : x ∈ L o := by rw [hl]; simp
      -- the link of a node is the head of what follows it
      have hnext : s.nodeNext x = l₂.headD 0 := by
        have := h.chain o ho
        rw [hl] at this
        exact this.split.2.1
      simp only [List.head?_cons, walk, checkLinks_eq_some (h.linkOk_next ho hx) s.linkOk_zero,
        List.find?_cons]
      cases hp : p x with
      | true => rfl
      | false =>
        have hcur : (if s.nodeNext x = 0 then none else some (s.nodeNext x)) = l₂.head? := by
          rw [hnext]
          cases l₂ with
          | nil => rfl
          | cons y =>
            have : y ≠ 0 := by
              rintro rfl
              exact h.zero_notMem ho (by rw [hl]; simp)
            simp [this]
        rw [hcur]
        exact ih (l₁ ++ [x]) l₂ (by simp [hl]) (by simpa using hlen)

/-- A list walk never halts the kernel and finds the first match. -/
theorem walk_rep (p : Nat → Bool) :
    s.walk p s.walkFuel (s.freeLists o) = some ((L o).find? p) := by
  rw [h.head o ho]
  exact walk_suffix h ho p s.walkFuel [] (L o) rfl (h.length_le ho)

/-- `try_remove` unlinks its target exactly when it is listed at that order. -/
theorem tryRemove_rep {target : Nat} (ht : pageSize ∣ target) :
    s.tryRemove o target =
      some (if target ∈ L o then (true, s.unlinked o target) else (false, s)) := by
  unfold tryRemove
  -- with the bitmap one look decides, without it the list is walked
  by_cases hc : s.covered target = true
  · rw [if_pos hc]
    have hbits := h.bits target (by simpa [covered] using hc) ht
    by_cases hm : target ∈ L o
    · have hbit : s.headBit target = true := hbits.mpr ⟨o, ho, hm⟩
      simp only [hbit, h.order o ho target hm, unlink_eq h ho hm, if_pos hm]
      simp
    · rw [if_neg hm]
      cases hb : s.headBit target with
      | false => rfl
      | true =>
        -- the bit may be set for a block of another order, which the node says
        obtain ⟨o', ho', hm'⟩ := hbits.mp hb
        have : o' ≠ o := by rintro rfl; exact hm hm'
        simp [h.order o' ho' target hm', this]
  · rw [if_neg hc, walk_rep h ho]
    by_cases hm : target ∈ L o
    · have hf : (L o).find? (· == target) = some target := by
        cases hf : (L o).find? (· == target) with
        | none => simpa using List.find?_eq_none.mp hf target hm
        | some => simpa using List.find?_some hf
      simp [hf, hm, unlink_eq h ho hm]
    · have hf : (L o).find? (· == target) = none := by
        rw [List.find?_eq_none]
        intro x hx
        have : x ≠ target := by rintro rfl; exact hm hx
        simpa using this
      simp [hf, hm]

end Buddy

end Leandros.Mm
