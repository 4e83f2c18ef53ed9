import Leandros.F2fs.Cache.View

/-!
# Leandros.F2fs.Cache.Ops

**What the operations of the cache do to the view of it, and to the undo log.** A request that may
be undone has logged each slot it changed (`Logged`): these are the slots that bear its epoch.

The mark of the epoch is how the source avoids a search of the log. `Logged.mem_iff` is the reason
that it may: blocks are in one slot each, so a block is in the log exactly if its slot has the mark.
`log_slot` has three outcomes (`logSlot_cases`): nothing to do, no memory for the record, which
gives the probe up, or a record at the head of the log. `undoOne_spec` takes one record back: the
old data and flags, or an empty slot where the probe had brought the block in.
-/

namespace Leandros.F2fs

open Function (update update_apply update_eq_self_iff update_idem)

open WriteBack (Entry)

variable {D : Type}

theorem Probe.eq_on {p : Probe} (h : p ≠ .off) (h' : p ≠ .missed) : p = .on := by
  cases p <;> first | rfl | contradiction

namespace BlockCache

variable {c x : BlockCache D} {i : Nat} {s : Slot D} {b : Nat}

/-! ### Slots and blocks -/

section

variable (c i b)

@[simp] theorem slots_touch : (c.touch i).slots = c.slots := by
  unfold touch
  split <;> rfl

@[simp] theorem probe_touch : (c.touch i).probe = c.probe := by
  unfold touch
  split <;> rfl

@[simp] theorem undo_touch : (c.touch i).undo = c.undo := by
  unfold touch
  split <;> rfl

@[simp] theorem ep_touch : (c.touch i).ep = c.ep := by
  unfold touch
  split <;> rfl

@[simp] theorem gens_touch : (c.touch i).gens = c.gens := by
  unfold touch
  split <;> rfl

theorem slots_install :
    (c.install i b).slots = c.slots.modify i fun s => { s with blk := some b } := by
  simp [install, modifySlot]

@[simp] theorem probe_install : (c.install i b).probe = c.probe := by
  simp [install, modifySlot]

@[simp] theorem undo_install : (c.install i b).undo = c.undo := by
  simp [install, modifySlot]

@[simp] theorem ep_install : (c.install i b).ep = c.ep := by
  simp [install, modifySlot]

theorem blkGen_install (k : Nat) : (c.install i b).blkGen k =
      if genIdx k = genIdx b then (c.blkGen b + 1) % 2 ^ 32 else c.blkGen k := by
  simp [install, modifySlot, blkGen, update_apply]

end

theorem sound_congr (h : c.Sound) (hs : x.slots = c.slots) (hl : x.lru = c.lru)
    (he : x.ep = c.ep) : x.Sound := by
  refine ⟨h.distinct.congr hs, hl ▸ h.nodup, fun i hi => ?_, fun {i s} hi => ?_, he ▸ h.ep⟩
  · rw [hs]
    exact h.evictable i (hl ▸ hi)
  · rw [hs] at hi
    rw [he]
    exact h.uep hi

theorem blkGen_congr (h : x.gens = c.gens) : x.blkGen = c.blkGen := by
  funext b
  simp [blkGen, h]

/-- A free slot gets a block. -/
theorem install_spec (h : c.Sound) (hi : c.slots[i]? = some s) (hb : s.blk = none)
    (hnone : c.find b = none) : (c.install i b).Sound ∧
      (c.install i b).cached = update c.cached b (some s.entry) := by
  obtain ⟨hd, hcached⟩ := cached_attach h.distinct (x := c.install i b) (slots_install c i b) hi hb
    (f := fun s => { s with blk := some b }) rfl hnone
  refine ⟨?_, hcached⟩
  have hu := h.uep hi
  have hmod : (c.modifySlot i fun s => { s with blk := some b }).Sound :=
    h.modifySlot hi (hd.congr (slots_install c i b).symm) rfl hu
  exact sound_congr (hmod.touch (getElem?_modify_self hi)) rfl rfl rfl

/-! ### The undo log -/

/-- The log by block. -/
def log (c : BlockCache D) : List (Nat × Option (Entry D)) :=
  c.undo.filterMap fun u => u.blk.map fun b => (b, u.data.map fun d => ⟨d, u.dirty, u.wb⟩)

theorem log_congr (h : x.undo = c.undo) : x.log = c.log := by
  simp [log, h]

/-- The slots of the log are those with the request's epoch. -/
structure Logged (c : BlockCache D) : Prop where
  slot : ∀ u ∈ c.undo, ∃ (s : Slot D) (b : Nat), c.slots[u.i]? = some s ∧ s.blk = some b ∧
    u.blk = some b ∧ s.uep = c.ep
  only : ∀ {i : Nat} {s : Slot D}, c.slots[i]? = some s → s.uep = c.ep → ∃ u ∈ c.undo, u.i = i

theorem mem_log {b : Nat} : b ∈ c.log.map Prod.fst ↔ ∃ u ∈ c.undo, u.blk = some b := by
  simp only [log, List.mem_map, List.mem_filterMap, Option.map_eq_some_iff]
  constructor
  · rintro ⟨-, ⟨u, hu, b', hb', rfl⟩, rfl⟩
    exact ⟨u, hu, hb'⟩
  · rintro ⟨u, hu, hb⟩
    exact ⟨_, ⟨u, hu, b, hb, rfl⟩, rfl⟩

/-- A slot bears the request's epoch if its block is in the log. -/
theorem Logged.mem_iff (h : c.Logged) (hd : c.Distinct) (hi : c.slots[i]? = some s)
    (hb : s.blk = some b) : b ∈ c.log.map Prod.fst ↔ s.uep = c.ep := by
  rw [mem_log]
  constructor
  · rintro ⟨u, hu, hub⟩
    obtain ⟨t, b', ht, htb, hub', hep⟩ := h.slot u hu
    rw [hub] at hub'
    cases hub'
    -- two slots with one block are the same slot
    have hij := hd hi ht hb htb
    rw [hij] at hi
    cases hi.symm.trans ht
    exact hep
  · intro hep
    obtain ⟨u, hu, rfl⟩ := h.only hi hep
    obtain ⟨t, b', ht, htb, hub, -⟩ := h.slot u hu
    cases hi.symm.trans ht
    rw [hb] at htb
    exact ⟨u, hu, hub.trans htb.symm⟩

/-- Slots that are not in the log change, or bear no epoch. -/
theorem Logged.mono (h : c.Logged) (hu : x.undo = c.undo) (he : x.ep = c.ep)
    (hslot : ∀ u ∈ c.undo, ∀ s, c.slots[u.i]? = some s →
      ∃ s', x.slots[u.i]? = some s' ∧ s'.blk = s.blk ∧ s'.uep = s.uep)
    (honly : ∀ {i : Nat} {s' : Slot D}, x.slots[i]? = some s' → s'.uep = c.ep →
      ∃ s, c.slots[i]? = some s ∧ s.uep = c.ep) : x.Logged := by
  refine ⟨fun u hum => ?_, fun {i s'} hi hep => ?_⟩
  · rw [hu] at hum
    obtain ⟨s, b, hs, hb, hub, hep⟩ := h.slot u hum
    obtain ⟨s', hs', hb', hep'⟩ := hslot u hum s hs
    exact ⟨s', b, hs', hb'.trans hb, hub, by rw [he, hep', hep]⟩
  · rw [he] at hep
    obtain ⟨s, hs, hep'⟩ := honly hi hep
    rw [hu]
    exact h.only hs hep'

/-- A slot changes that keeps its block and its epoch. -/
theorem Logged.edit (h : c.Logged) (hu : x.undo = c.undo) (he : x.ep = c.ep)
    {f : Slot D → Slot D} (hs : x.slots = c.slots.modify i f) (hi : c.slots[i]? = some s)
    (hb : (f s).blk = s.blk) (hep : (f s).uep = s.uep) : x.Logged := by
  have hkeep : ∀ {j : Nat} {t : Slot D}, c.slots[j]? = some t →
      (if i = j then f t else t).blk = t.blk ∧ (if i = j then f t else t).uep = t.uep := by
    intro j t ht
    split
    · next hij =>
      subst hij
      cases hi.symm.trans ht
      exact ⟨hb, hep⟩
    · exact ⟨rfl, rfl⟩
  refine h.mono hu he (fun u _ t ht => ?_) fun {j t'} ht' hep' => ?_
  · exact ⟨_, by rw [hs]; exact getElem?_modify_eq.mpr ⟨t, ht, rfl⟩, hkeep ht⟩
  · rw [hs] at ht'
    obtain ⟨t, ht, rfl⟩ := getElem?_modify_eq.mp ht'
    exact ⟨t, ht, (hkeep ht).2.symm.trans hep'⟩

/-- A record is added for a slot that had none. -/
theorem Logged.push (h : c.Logged) (hi : c.slots[i]? = some s) (hb : s.blk = some b)
    (hne : s.uep ≠ c.ep) {u : Undo D} (hu : u.i = i ∧ u.blk = some b) :
    ({ c.modifySlot i (fun s => { s with uep := c.ep }) with undo := u :: c.undo } :
      BlockCache D).Logged := by
  refine ⟨fun u' hum => ?_, fun {j t'} ht' hep => ?_⟩
  · rcases List.mem_cons.mp hum with rfl | hum
    · obtain ⟨rfl, hub⟩ := hu
      exact ⟨_, b, getElem?_modify_eq.mpr ⟨s, hi, (if_pos rfl).symm⟩, hb, hub, rfl⟩
    obtain ⟨t, b', ht, htb, hub, hep⟩ := h.slot u' hum
    -- the slot has no mark of this epoch, so no older record is about it
    have hij : i ≠ u'.i := by
      rintro rfl
      cases hi.symm.trans ht
      exact hne hep
    exact ⟨t, b', getElem?_modify_eq.mpr ⟨t, ht, (if_neg hij).symm⟩, htb, hub, hep⟩
  · obtain ⟨t, ht, rfl⟩ := getElem?_modify_eq.mp ht'
    by_cases hij : i = j
    · exact ⟨u, .head _, hu.1.trans hij⟩
    · rw [if_neg hij] at hep
      obtain ⟨u', hum, hui⟩ := h.only ht hep
      exact ⟨u', .tail _ hum, hui⟩

/-! ### `log_slot` -/

section

variable (hi : c.slots[i]? = some s) (new : Bool) (a : Alloc)
include hi

/-- What `log_slot` does: nothing, or it gives up, or it adds a record. -/
theorem logSlot_cases :
    (c.logSlot i new a = c ∧ (c.probe ≠ .on ∨ s.uep = c.ep)) ∨
    c.logSlot i new a = { c with probe := .off } ∨
    (c.probe = .on ∧ s.uep ≠ c.ep ∧ c.logSlot i new a =
      { c.modifySlot i (fun s => { s with uep := c.ep }) with
        undo := ⟨i, s.blk, s.dirty, s.wb, if new then none else some s.data⟩ :: c.undo }) := by
  unfold logSlot
  rw [hi]
  dsimp only
  split
  · next hn => exact .inl ⟨rfl, hn⟩
  · next hn =>
    rw [not_or, not_not] at hn
    split
    · -- no memory for the record: the probe is given up
      refine .inr (Or.inl ?_)
      unfold probeAbandon
      rw [if_pos hn.1]
    · exact .inr (Or.inr ⟨hn.1, hn.2, rfl⟩)

/-- The view and the soundness of a cache after `log_slot`. -/
theorem logSlot_spec (h : c.Sound) (hb : s.blk = some b) :
    (c.logSlot i new a).Sound ∧ (c.logSlot i new a).cached = c.cached ∧
      (c.logSlot i new a).gens = c.gens ∧
      ∃ s', (c.logSlot i new a).slots[i]? = some s' ∧ s'.blk = some b ∧ s'.entry = s.entry := by
  rcases logSlot_cases hi new a with ⟨he, -⟩ | he | ⟨-, -, he⟩ <;> rw [he]
  · exact ⟨h, rfl, rfl, s, hi, hb, rfl⟩
  · exact ⟨sound_congr h rfl rfl rfl, cached_congr rfl, rfl, s, hi, hb, rfl⟩
  · obtain ⟨hs, hslot, hcached⟩ :=
      h.edit (f := fun s => { s with uep := c.ep }) hi rfl rfl (Nat.le_refl _)
    refine ⟨sound_congr hs rfl rfl rfl, ?_, rfl, _, hslot, hb, rfl⟩
    refine (cached_congr (c := c.modifySlot i fun s => { s with uep := c.ep }) rfl).trans ?_
    rw [hcached, hb]
    exact update_eq_self_iff.mpr (h.distinct.cached_of_slot hi hb).symm

/-- What `log_slot` is for a request that can be undone: the slot was in the log, or is now. -/
theorem logSlot_logged (hb : s.blk = some b) (hmiss : c.probe ≠ .missed) :
    (c.probe = .off → (c.logSlot i new a).probe = .off) ∧
    ((c.logSlot i new a).probe ≠ .off → c.probe ≠ .off ∧ (c.logSlot i new a = c ∧ s.uep = c.ep ∨
        s.uep ≠ c.ep ∧ (c.Logged → (c.logSlot i new a).Logged) ∧
          (c.logSlot i new a).log = (b, if new then none else some s.entry) :: c.log)) := by
  rcases logSlot_cases hi new a with ⟨he, hcase⟩ | he | ⟨hon, hne, he⟩ <;> rw [he]
  · refine ⟨id, fun hp => ⟨hp, .inl ⟨rfl, ?_⟩⟩⟩
    exact hcase.resolve_left fun hno => hno (Probe.eq_on hp hmiss)
  · exact ⟨fun _ => rfl, fun hp => absurd rfl hp⟩
  · refine ⟨fun hoff => by rw [hoff] at hon; contradiction, fun _ => ⟨by rw [hon]; nofun,
      .inr ⟨hne, fun hlog => hlog.push hi hb hne ⟨rfl, hb⟩, ?_⟩⟩⟩
    simp only [hb]
    cases new <;> rfl

end

/-! ### Undoing -/

/-- One record of the log. -/
theorem undoOne_spec (h : c.Sound) {u : Undo D} (hi : c.slots[u.i]? = some s)
    (hb : s.blk = some b) (hub : u.blk = some b) :
    (c.undoOne u).Sound ∧ (c.undoOne u).gens = c.gens ∧ (c.undoOne u).probe = c.probe ∧
      (c.undoOne u).cached = update c.cached b (u.data.map fun d => ⟨d, u.dirty, u.wb⟩) ∧
      ∀ {j : Nat} {t : Slot D}, j ≠ u.i → c.slots[j]? = some t →
        (c.undoOne u).slots[j]? = some t := by
  -- an undo record touches its own slot only
  have hother : ∀ {l : List (Slot D)} {f : Slot D → Slot D} {j : Nat} {t : Slot D}, j ≠ u.i →
      l[j]? = some t → (l.modify u.i f)[j]? = some t :=
    fun hj ht => getElem?_modify_eq.mpr ⟨_, ht, (if_neg (Ne.symm hj)).symm⟩
  unfold undoOne
  rw [if_neg (by rw [hi, hub]; simp [hb])]
  cases hdata : u.data with
  | none =>
    -- a block that the probe brought in: the slot comes free and may be evicted
    dsimp only
    obtain ⟨h1, hi1, hcached1⟩ := h.reflag hi false false
    obtain ⟨h2, hi2, hcached2⟩ := h1.detach hi1
    refine ⟨⟨h2.distinct, ?_, fun j hj => ?_, h2.uep, h2.ep⟩, rfl, rfl, ?_, fun hj ht => ?_⟩
    · refine List.nodup_append'.mpr ⟨h2.nodup.erase _, List.nodup_singleton _, fun j hj hj' => ?_⟩
      rw [List.mem_singleton.mp hj'] at hj
      exact h2.nodup.not_mem_erase hj
    · rcases List.mem_append.mp hj with hj | hj
      · exact h2.evictable j (List.mem_of_mem_erase hj)
      · rw [List.mem_singleton.mp hj]
        exact ⟨_, hi2, rfl⟩
    · refine (cached_congr (c := (c.setFlags u.i false false).detach u.i) rfl).trans ?_
      simp only [hcached2, hcached1, hb, Option.elim_some, update_idem]
      rfl
    · exact hother hj (hother hj ht)
  | some d =>
    -- a block that was there: its old data and flags, without the mark
    dsimp only
    have hu := h.uep hi
    obtain ⟨h1, hi1, hcached1⟩ := h.edit (f := fun s => { s with data := d }) hi rfl rfl hu
    obtain ⟨h2, hi2, hcached2⟩ := h1.reflag hi1 u.dirty u.wb
    obtain ⟨h3, -, hcached3⟩ :=
      h2.edit (f := fun s => { s with uep := 0 }) hi2 rfl rfl (Nat.zero_le _)
    refine ⟨h3, rfl, rfl, ?_, fun hj ht => ?_⟩
    · simp only [hcached3, hcached2, hcached1, hb, Option.elim_some, update_idem]
      rfl
    · exact hother hj (hother hj (hother hj ht))

end BlockCache

end Leandros.F2fs
