import Leandros.F2fs.Cache.Model
import Leandros.Lib.WriteBack

/-!
# Leandros.F2fs.Cache.View

**What the cache holds of each block.** The slots of the cache are looked at by block number
(`cached`): the contents and the flags of the slot that has the block. In a sound cache no two
slots have the same block, and the evictable list has clean slots only. For each change of a
slot there is a lemma that says what it does to this view.

`replace` is the general case: one slot gets other contents, of its own block, of a block that was
nowhere, or of none. The views after a store, an install and a detach are instances of it. A growing
cache adds blank slots at the end, which no block number finds.
-/

namespace Leandros.F2fs

open Function (update)

open WriteBack (Entry)

variable {D : Type}

def Slot.entry (s : Slot D) : Entry D := ⟨s.data, s.dirty, s.wb⟩

namespace BlockCache

/-- What the cache has of a block. -/
def cached (c : BlockCache D) (b : Nat) : Option (Entry D) :=
  ((c.find b).bind fun i => c.slots[i]?).map Slot.entry

/-- No two slots have the same block. -/
def Distinct (c : BlockCache D) : Prop :=
  ∀ ⦃i j : Nat⦄ ⦃s t : Slot D⦄ ⦃b : Nat⦄, c.slots[i]? = some s → c.slots[j]? = some t →
    s.blk = some b → t.blk = some b → i = j

variable {c x : BlockCache D} {i : Nat} {s : Slot D} {b : Nat}

theorem find_eq_some (h : c.find b = some i) : ∃ s, c.slots[i]? = some s ∧ s.blk = some b := by
  obtain ⟨hi, hp, -⟩ := List.findIdx?_eq_some_iff_getElem.mp h
  exact ⟨_, List.getElem?_eq_getElem hi, by simpa using hp⟩

theorem find_eq_none :
    c.find b = none ↔ ∀ (i : Nat) (s : Slot D), c.slots[i]? = some s → s.blk ≠ some b := by
  rw [find, List.findIdx?_eq_none_iff]
  constructor
  · intro h i s hs
    have := h s (List.mem_of_getElem? hs)
    simpa using this
  · intro h s hs
    obtain ⟨i, hi⟩ := List.getElem?_of_mem hs
    simpa using h i s hi

theorem cached_eq_none : c.cached b = none ↔ c.find b = none := by
  constructor
  · intro h
    cases hf : c.find b with
    | none => rfl
    | some =>
      obtain ⟨s, hs, -⟩ := find_eq_some hf
      simp [cached, hf, hs] at h
  · intro h
    simp [cached, h]

theorem cached_of_find (h : c.find b = some i) (hs : c.slots[i]? = some s) :
    c.cached b = some s.entry := by
  simp [cached, h, hs]

theorem Distinct.find (h : c.Distinct) (hs : c.slots[i]? = some s) (hb : s.blk = some b) :
    c.find b = some i := by
  cases hf : c.find b with
  | none => exact absurd hb (find_eq_none.mp hf i s hs)
  | some =>
    obtain ⟨t, ht, htb⟩ := find_eq_some hf
    rw [h ht hs htb hb]

theorem Distinct.cached_eq_some (h : c.Distinct) {e : Entry D} : c.cached b = some e ↔
      ∃ (i : Nat) (s : Slot D), c.slots[i]? = some s ∧ s.blk = some b ∧ s.entry = e := by
  constructor
  · intro he
    cases hf : c.find b with
    | none => simp [cached, hf] at he
    | some i =>
      obtain ⟨s, hs, hb⟩ := find_eq_some hf
      rw [cached_of_find hf hs] at he
      exact ⟨i, s, hs, hb, Option.some.inj he⟩
  · rintro ⟨i, s, hs, hb, rfl⟩
    exact cached_of_find (h.find hs hb) hs

theorem Distinct.cached_of_slot (h : c.Distinct) (hs : c.slots[i]? = some s)
    (hb : s.blk = some b) : c.cached b = some s.entry :=
  cached_of_find (h.find hs hb) hs

/-- The view depends on the slots only. -/
theorem cached_congr (h : x.slots = c.slots) : x.cached = c.cached := by
  funext b
  simp [cached, find, h]

theorem Distinct.congr (hd : c.Distinct) (h : x.slots = c.slots) : x.Distinct := by
  intro i j s t b hi hj
  rw [h] at hi hj
  exact hd hi hj

/-! ### One slot changes -/

variable {f : Slot D → Slot D}

theorem getElem?_modify_eq {l : List (Slot D)} {j : Nat} {t : Slot D} :
    (l.modify i f)[j]? = some t ↔ ∃ s, l[j]? = some s ∧ t = if i = j then f s else s := by
  rw [List.getElem?_modify]
  cases l[j]? with
  | none => simp
  | some s =>
    simp only [Option.map_eq_map, Option.map_some, Option.some.injEq]
    constructor
    · rintro rfl
      exact ⟨s, rfl, rfl⟩
    · rintro ⟨s, rfl, rfl⟩
      rfl

theorem getElem?_modify_self {l : List (Slot D)} (hi : l[i]? = some s) :
    (l.modify i f)[i]? = some (f s) :=
  getElem?_modify_eq.mpr ⟨s, hi, (if_pos rfl).symm⟩

section

variable (hd : c.Distinct)
include hd

section

variable (hc : x.slots = c.slots.modify i f) (hi : c.slots[i]? = some s)
include hc hi

/-- What the view becomes when slot `i` changes; a slot gets no block that another slot has. -/
theorem replace (hb : ∀ b, (f s).blk = some b → s.blk = some b ∨ c.find b = none) :
    x.Distinct ∧ ∀ b, x.cached b = if (f s).blk = some b then some (f s).entry
      else if s.blk = some b then none else c.cached b := by
  have hslot : ∀ {j : Nat} {t : Slot D}, x.slots[j]? = some t ↔
      ∃ u, c.slots[j]? = some u ∧ t = if i = j then f u else u := by
    intro j t
    rw [hc]
    exact getElem?_modify_eq
  -- the new block is in no other slot, as it was in this one or nowhere
  have hother : ∀ {j : Nat} {u : Slot D} {b : Nat}, c.slots[j]? = some u → i ≠ j →
      u.blk = some b → (f s).blk ≠ some b := by
    intro j u b hu hij hub hfb
    rcases hb b hfb with hsb | hnone
    · exact hij (hd hi hu hsb hub)
    · exact find_eq_none.mp hnone j u hu hub
  have hdist : x.Distinct := by
    intro j k t u b ht hu htb hub
    obtain ⟨t', ht', rfl⟩ := hslot.mp ht
    obtain ⟨u', hu', rfl⟩ := hslot.mp hu
    -- which of the two slots is the one that changed
    by_cases hij : i = j <;> by_cases hik : i = k
    · exact hij.symm.trans hik
    · subst hij
      rw [if_pos rfl] at htb
      rw [if_neg hik] at hub
      cases hi.symm.trans ht'
      exact absurd htb (hother hu' hik hub)
    · subst hik
      rw [if_neg hij] at htb
      rw [if_pos rfl] at hub
      cases hi.symm.trans hu'
      exact absurd hub (hother ht' hij htb)
    · rw [if_neg hij] at htb
      rw [if_neg hik] at hub
      exact hd ht' hu' htb hub
  refine ⟨hdist, fun b => ?_⟩
  split
  · next hfb => exact hdist.cached_of_slot (hslot.mpr ⟨s, hi, (if_pos rfl).symm⟩) hfb
  · next hfb =>
    split
    · next hsb =>
      -- the old block of the slot has gone, and it was in no other
      rw [cached_eq_none, find_eq_none]
      intro j t ht htb
      obtain ⟨u, hu, rfl⟩ := hslot.mp ht
      by_cases hij : i = j
      · subst hij
        rw [if_pos rfl] at htb
        cases hi.symm.trans hu
        exact hfb htb
      · rw [if_neg hij] at htb
        exact hij (hd hi hu hsb htb)
    · next hsb =>
      -- a third block is where it was
      refine Option.ext fun e => ?_
      rw [hdist.cached_eq_some, hd.cached_eq_some]
      constructor
      · rintro ⟨j, t, ht, htb, hte⟩
        obtain ⟨u, hu, rfl⟩ := hslot.mp ht
        by_cases hij : i = j
        · subst hij
          rw [if_pos rfl] at htb
          cases hi.symm.trans hu
          exact absurd htb hfb
        · rw [if_neg hij] at htb hte
          exact ⟨j, u, hu, htb, hte⟩
      · rintro ⟨j, u, hu, hub, hue⟩
        have hij : i ≠ j := by
          rintro rfl
          cases hi.symm.trans hu
          exact hsb hub
        exact ⟨j, u, hslot.mpr ⟨u, hu, (if_neg hij).symm⟩, hub, hue⟩

/-- A slot changes that keeps its block, if it has one, or loses it. -/
theorem cached_own {e : Option (Entry D)} (hf : ∀ b, (f s).blk = some b → s.blk = some b)
    (he : ∀ b, s.blk = some b → e = if (f s).blk = some b then some (f s).entry else none) :
    x.Distinct ∧ x.cached = s.blk.elim c.cached (update c.cached · e) := by
  obtain ⟨hd', hcached⟩ := replace hd hc hi fun b hfb => .inl (hf b hfb)
  refine ⟨hd', funext fun k => ?_⟩
  rw [hcached]
  by_cases hk : s.blk = some k
  · simp [hk, he k hk]
  · rw [if_neg (mt (hf k) hk), if_neg hk]
    cases hb : s.blk <;> simp_all [Ne.symm]

/-- A slot without a block gets one. -/
theorem cached_attach (hb : s.blk = none) (hf : (f s).blk = some b)
    (hnone : c.find b = none) : x.Distinct ∧ x.cached = update c.cached b (some (f s).entry) := by
  obtain ⟨hd', hcached⟩ := replace hd hc hi fun k hfk => by
    rw [hf] at hfk
    exact .inr (Option.some.inj hfk ▸ hnone)
  refine ⟨hd', funext fun k => ?_⟩
  by_cases hk : b = k
  · simp [hcached, hf, hk]
  · simp [hcached, hf, hb, hk, Ne.symm hk]

end

/-! ### All slots change -/

/-- Every slot keeps its block. -/
theorem cached_map {g : Entry D → Entry D}
    (hc : x.slots = c.slots.map f) (hb : ∀ s, (f s).blk = s.blk)
    (he : ∀ s, (f s).entry = g s.entry) : x.Distinct ∧ x.cached = fun b => (c.cached b).map g := by
  have hslot : ∀ {j : Nat} {t : Slot D}, x.slots[j]? = some t ↔
      ∃ u, c.slots[j]? = some u ∧ f u = t := by
    intro j t
    rw [hc, List.getElem?_map, Option.map_eq_some_iff]
  have hdist : x.Distinct := by
    intro j k t u b ht hu htb hub
    obtain ⟨t', ht', rfl⟩ := hslot.mp ht
    obtain ⟨u', hu', rfl⟩ := hslot.mp hu
    exact hd ht' hu' ((hb _).symm.trans htb) ((hb _).symm.trans hub)
  refine ⟨hdist, funext fun b => Option.ext fun e => ?_⟩
  -- an entry is cached there exactly if its preimage is cached here, slot by slot
  rw [hdist.cached_eq_some, Option.map_eq_some_iff]
  constructor
  · rintro ⟨j, t, ht, htb, rfl⟩
    obtain ⟨u, hu, rfl⟩ := hslot.mp ht
    exact ⟨u.entry, hd.cached_of_slot hu ((hb u).symm.trans htb), (he u).symm⟩
  · rintro ⟨e, hce, rfl⟩
    obtain ⟨j, u, hu, hub, rfl⟩ := hd.cached_eq_some.mp hce
    exact ⟨j, f u, hslot.mpr ⟨u, hu, rfl⟩, (hb u).trans hub, he u⟩

end

/-! ### Sound caches -/

/-- No two slots have the same block, and every slot on the evictable list may be evicted. -/
structure Sound (c : BlockCache D) : Prop where
  distinct : c.Distinct
  nodup : c.lru.Nodup
  evictable : ∀ i ∈ c.lru, ∃ s, c.slots[i]? = some s ∧ s.pinned = false
  uep : ∀ {i : Nat} {s : Slot D}, c.slots[i]? = some s → s.uep ≤ c.ep
  ep : 0 < c.ep

theorem pinned_eq (hi : c.slots[i]? = some s) : c.pinned i = s.pinned := by
  simp [pinned, hi]

namespace Sound

variable (h : c.Sound)
include h

section

variable (hi : c.slots[i]? = some s)
include hi

/-- One slot changes without its flags. -/
theorem modifySlot {f : Slot D → Slot D}
    (hd : (c.modifySlot i f).Distinct) (hf : (f s).pinned = s.pinned) (hu : (f s).uep ≤ c.ep) :
    (c.modifySlot i f).Sound := by
  refine ⟨hd, h.nodup, fun j hj => ?_, fun {j t} ht => ?_, h.ep⟩
  · obtain ⟨t, ht, hp⟩ := h.evictable j hj
    refine ⟨if i = j then f t else t, getElem?_modify_eq.mpr ⟨t, ht, rfl⟩, ?_⟩
    split
    · next hij =>
      subst hij
      cases hi.symm.trans ht
      exact hf.trans hp
    · exact hp
  · obtain ⟨t', ht', rfl⟩ := getElem?_modify_eq.mp ht
    split
    · next hij =>
      subst hij
      cases hi.symm.trans ht'
      exact hu
    · exact h.uep ht'

theorem touch : (c.touch i).Sound := by
  unfold BlockCache.touch
  split
  · exact h
  · next hn =>
    rw [Bool.or_eq_true, not_or, pinned_eq hi, Bool.not_eq_true] at hn
    refine ⟨h.distinct, List.nodup_cons.mpr ⟨h.nodup.not_mem_erase, h.nodup.erase i⟩,
      fun j hj => ?_, h.uep, h.ep⟩
    rcases List.mem_cons.mp hj with rfl | hj
    · exact ⟨s, hi, hn.1⟩
    · exact h.evictable j (List.mem_of_mem_erase hj)

/-- A slot that comes clean is evictable; one that does not leaves the list. -/
theorem setFlags (dirty wb : Bool) : (c.setFlags i dirty wb).Sound := by
  have hd : (c.setFlags i dirty wb).Distinct :=
    (replace h.distinct rfl hi fun b hb => .inl hb).1
  have hslot : ∀ {j : Nat} {t : Slot D}, c.slots[j]? = some t → (c.setFlags i dirty wb).slots[j]? =
      some (if i = j then { t with dirty := dirty, wb := wb } else t) :=
    fun ht => getElem?_modify_eq.mpr ⟨_, ht, rfl⟩
  refine ⟨hd, ?_, fun j hj => ?_, fun {j t} ht => ?_, h.ep⟩
  · simp only [BlockCache.setFlags, pinned_eq hi]
    split
    · next hw =>
      refine List.nodup_cons.mpr ⟨fun hm => ?_, h.nodup⟩
      obtain ⟨t, ht, hp⟩ := h.evictable i hm
      cases hi.symm.trans ht
      rw [hp] at hw
      contradiction
    · split
      · exact h.nodup.erase i
      · exact h.nodup
  · simp only [BlockCache.setFlags, pinned_eq hi] at hj
    by_cases hij : i = j
    · subst hij
      refine ⟨_, hslot hi, ?_⟩
      rw [if_pos rfl]
      -- On the list only if it was pushed now, or was there and stays unpinned.
      have hout : s.pinned = true → i ∉ c.lru := by
        intro hp hm
        obtain ⟨t, ht, hp'⟩ := h.evictable i hm
        cases hi.symm.trans ht
        rw [hp] at hp'
        contradiction
      cases hnow : (dirty || wb) with
      | false => simpa [Slot.pinned] using hnow
      | true =>
        rw [hnow] at hj
        cases hp : s.pinned with
        | false =>
          simp only [hp, Bool.false_and, Bool.not_false, Bool.and_self, if_true, if_false,
            Bool.false_eq_true] at hj
          exact absurd hj h.nodup.not_mem_erase
        | true =>
          simp only [hp, Bool.not_true, Bool.and_false, Bool.false_and, Bool.false_eq_true,
            if_false] at hj
          exact absurd hj (hout hp)
    · have hj' : j ∈ c.lru := by
        split at hj
        · exact (List.mem_cons.mp hj).resolve_left (Ne.symm hij)
        · split at hj
          · exact List.mem_of_mem_erase hj
          · exact hj
      obtain ⟨t, ht, hp⟩ := h.evictable j hj'
      exact ⟨t, by rw [hslot ht, if_neg hij], hp⟩
  · obtain ⟨t', ht', rfl⟩ := getElem?_modify_eq.mp ht
    have hle := h.uep ht'
    split <;> exact hle

/-- A slot changes and keeps its block and its flags. -/
theorem edit {f : Slot D → Slot D}
    (hf : (f s).blk = s.blk) (hp : (f s).pinned = s.pinned) (hu : (f s).uep ≤ c.ep) :
    (c.modifySlot i f).Sound ∧ (c.modifySlot i f).slots[i]? = some (f s) ∧
      (c.modifySlot i f).cached = s.blk.elim c.cached (update c.cached · (some (f s).entry)) := by
  obtain ⟨hd, hcached⟩ := cached_own h.distinct (x := c.modifySlot i f) rfl hi (hf ▸ fun _ => id)
    fun _ hb => (if_pos (hf.trans hb)).symm
  exact ⟨h.modifySlot hi hd hp hu, getElem?_modify_self hi, hcached⟩

theorem reflag (dirty wb : Bool) : (c.setFlags i dirty wb).Sound ∧
      (c.setFlags i dirty wb).slots[i]? = some { s with dirty := dirty, wb := wb } ∧
      (c.setFlags i dirty wb).cached =
        s.blk.elim c.cached (update c.cached · (some ⟨s.data, dirty, wb⟩)) :=
  ⟨h.setFlags hi dirty wb, getElem?_modify_self hi,
    (cached_own h.distinct (x := c.setFlags i dirty wb) rfl hi (fun _ => id) fun _ hb => (if_pos hb).symm).2⟩

theorem detach :
    (c.detach i).Sound ∧ (c.detach i).slots[i]? = some { s with blk := none, uep := 0 } ∧
      (c.detach i).cached = s.blk.elim c.cached (update c.cached · none) := by
  obtain ⟨hd, hcached⟩ := cached_own h.distinct (x := c.detach i) rfl hi nofun fun _ _ => rfl
  exact ⟨h.modifySlot hi hd rfl (Nat.zero_le _), getElem?_modify_self hi, hcached⟩

end

/-- Blank slots at the end are clean and in the list. -/
theorem grow [Zero D] : c.grow.Sound := by
  -- a slot of the longer vector is an old one or blank
  have hslot : ∀ {j : Nat} {t : Slot D}, c.grow.slots[j]? = some t →
      c.slots[j]? = some t ∨ t.blk = none ∧ t.pinned = false ∧ t.uep = 0 := by
    intro j t ht
    simp only [BlockCache.grow, List.getElem?_append, List.getElem?_replicate] at ht
    split at ht
    · exact .inl ht
    split at ht
    · rw [← Option.some.inj ht]
      exact .inr ⟨rfl, rfl, rfl⟩
    · contradiction
  refine ⟨?_, ?_, fun j hj => ?_, fun {j t} ht => ?_, h.ep⟩
  · intro j k t u b ht hu htb hub
    rcases hslot ht with ht | ⟨hn, -⟩
    · rcases hslot hu with hu | ⟨hn, -⟩
      · exact h.distinct ht hu htb hub
      · rw [hn] at hub
        contradiction
    · rw [hn] at htb
      contradiction
  · -- the new indices are past all those that the list has
    refine List.nodup_append'.mpr ⟨h.nodup, List.nodup_range', fun j hj hj' => ?_⟩
    obtain ⟨t, ht, -⟩ := h.evictable j hj
    have hlt := (List.getElem?_eq_some_iff.mp ht).1
    have := (List.mem_range'_1.mp hj').1
    omega
  · rcases List.mem_append.mp hj with hj | hj
    · obtain ⟨t, ht, hp⟩ := h.evictable j hj
      refine ⟨t, ?_, hp⟩
      have hlt := (List.getElem?_eq_some_iff.mp ht).1
      simp only [BlockCache.grow, List.getElem?_append, if_pos hlt]
      exact ht
    · have hr := List.mem_range'_1.mp hj
      refine ⟨⟨none, false, false, 0, 0⟩, ?_, rfl⟩
      simp only [BlockCache.grow, List.getElem?_append, List.getElem?_replicate]
      rw [if_neg (by omega), if_pos (by omega)]
  · rcases hslot ht with ht | ⟨-, -, hz⟩
    · exact h.uep ht
    · rw [hz]
      exact Nat.zero_le _

end Sound

theorem cached_grow [Zero D] (h : c.Sound) : c.grow.cached = c.cached := by
  funext b
  refine Option.ext fun e => ?_
  rw [h.grow.distinct.cached_eq_some, h.distinct.cached_eq_some]
  constructor
  · rintro ⟨j, t, ht, htb, hte⟩
    refine ⟨j, t, ?_, htb, hte⟩
    -- a blank slot holds no block
    simp only [BlockCache.grow, List.getElem?_append, List.getElem?_replicate] at ht
    split at ht
    · exact ht
    split at ht
    · rw [← Option.some.inj ht] at htb
      contradiction
    · contradiction
  · rintro ⟨j, t, ht, htb, hte⟩
    refine ⟨j, t, ?_, htb, hte⟩
    simp only [BlockCache.grow, List.getElem?_append, if_pos (List.getElem?_eq_some_iff.mp ht).1]
    exact ht

end BlockCache

end Leandros.F2fs
