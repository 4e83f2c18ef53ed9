import Leandros.F2fs.Cache.Ops

/-!
# Leandros.F2fs.Cache.Coherence

**The cache returns what was last stored.** A volume is seen as a write-back cache
(`Volume.state`), and each of its steps as one or two of the things that can happen to such a
cache.

A fetch pass validates what it read by the generation of the block, which moves when a block
enters the cache. So a pass is right about a block that was not cached when the pass was planned.
But a range of the pass also covers blocks that were cached then; if such a block is written
back and evicted while the pass runs, nothing has moved, and what the pass read before goes into
the cache. `Volume.ok` leaves these evictions out, and generations that come round.
-/

namespace Leandros.F2fs

open Function (update update_apply update_idem update_self)
open BlockCache

open WriteBack (Entry Coherent Undoable landed)

variable {D : Type}

namespace Volume

/-- The block is not written around the cache. -/
def real (v : Volume D) (b : Nat) : Prop := b ≠ v.packs.1 ∧ b ≠ v.packs.2

def todo (v : Volume D) : List (Nat × D) :=
  match v.cp with
  | some k => k.todo
  | none => []

/-- The volume as a write-back cache. -/
def state (v : Volume D) : WriteBack.State Nat D where
  cached := v.cache.cached
  dev := v.dev
  todo := v.todo
  gen := v.cache.blkGen
  fetches := { f | ∃ who, ∃ f' ∈ v.pass who, f = ⟨f'.blk, f'.gen, f'.data⟩ }
  stored := v.stored

/-- The invariant. -/
structure Inv (v : Volume D) : Prop where
  sound : v.cache.Sound
  coherent : Coherent v.real v.state
  landed : v.inflight = false → v.todo = []
  record : ∀ k, v.cp = some k → ¬ v.real k.record.1
  idle : v.request = none → v.cache.probe = .off
  undo : v.cache.probe ≠ .off → v.cache.Logged ∧ Undoable v.real v.state v.before v.cache.log

/-- A slot of the log is dirty. -/
theorem Inv.logged_dirty {v : Volume D} (h : v.Inv) (hp : v.cache.probe ≠ .off) {u : Undo D}
    (hu : u ∈ v.cache.undo) {s : Slot D} (hs : v.cache.slots[u.i]? = some s) : s.dirty = true := by
  obtain ⟨hlog, hundo⟩ := h.undo hp
  obtain ⟨t, b, ht, htb, hub, -⟩ := hlog.slot u hu
  cases hs.symm.trans ht
  obtain ⟨e, he, hd, -⟩ := hundo.entry (b, u.data.map fun d => ⟨d, u.dirty, u.wb⟩)
    (List.mem_filterMap.mpr ⟨u, hu, by rw [hub]; rfl⟩)
  have hse := h.sound.distinct.cached_of_slot hs htb
  rw [← Option.some.inj (hse.symm.trans he)] at hd
  exact hd

section Steps

variable [Zero D]

/-- The block that `take_slot` drops, and its contents. -/
def victim (v : Volume D) (a : Alloc) : Option (Nat × D) :=
  (v.pickSlot a).bind fun r => (r.2.slots[r.1.1]?).bind fun s => s.blk.map (·, s.data)

/-- The block for which the action calls `take_slot`. -/
def allocates (v : Volume D) : CacheAction D → Option Nat
  | .read _ b _ | .getMut _ b _ _ =>
    if v.cache.find b = none ∧ v.cache.probe = .off then some b else none
  | .write _ b _ _ => if v.cache.find b = none ∧ v.cache.probe ≠ .missed then some b else none
  | .install who k _ =>
    ((v.pass who)[k]?).bind fun f =>
      if f.data.isSome ∧ v.cache.find f.blk = none ∧ v.cache.blkGen f.blk = f.gen then some f.blk
      else none
  | _ => none

/-- No fetch pass has read older contents of the block that is dropped, under its present
generation. -/
def drops (v : Volume D) (a : Alloc) : Prop :=
  ∀ b d, v.victim a = some (b, d) → ∀ who, ∀ f ∈ v.pass who, f.blk = b → v.cache.blkGen b = f.gen →
    ∀ d', f.data = some d' → d' = d

/-- The generation of `b` does not come round to one that a fetch pass has. -/
def renews (v : Volume D) (b : Nat) : Prop :=
  ∀ who, ∀ f ∈ v.pass who, genIdx f.blk = genIdx b → f.gen ≠ (v.cache.blkGen b + 1) % 2 ^ 32

end Steps

end Volume

namespace BlockCache

/-- `c'` has free slots that `c` does not have. -/
structure Grown (c c' : BlockCache D) : Prop where
  sound : c'.Sound
  cached : c'.cached = c.cached
  probe : c'.probe = c.probe
  undo : c'.undo = c.undo
  ep : c'.ep = c.ep
  gens : c'.gens = c.gens
  old : ∀ {j : Nat} {t : Slot D}, c.slots[j]? = some t → c'.slots[j]? = some t
  new : ∀ {j : Nat} {t : Slot D}, c'.slots[j]? = some t →
    c.slots[j]? = some t ∨ t.blk = none ∧ t.uep = 0

theorem Grown.trans {c c' c'' : BlockCache D} (h : c.Grown c') (h' : c'.Grown c'') : c.Grown c'' :=
  ⟨h'.sound, h'.cached.trans h.cached, h'.probe.trans h.probe, h'.undo.trans h.undo,
    h'.ep.trans h.ep, h'.gens.trans h.gens, fun ht => h'.old (h.old ht),
    fun ht => (h'.new ht).elim h.new .inr⟩

theorem grown_grow [Zero D] {c : BlockCache D} (h : c.Sound) (p : Bool) :
    c.Grown (if p then c.grow else c) := by
  cases p with
  | false => exact ⟨h, rfl, rfl, rfl, rfl, rfl, id, .inl⟩
  | true =>
    refine ⟨h.grow, cached_grow h, rfl, rfl, rfl, rfl, fun {j t} ht => ?_, fun {j t} ht => ?_⟩
    · simp only [if_true, grow, List.getElem?_append, if_pos (List.getElem?_eq_some_iff.mp ht).1]
      exact ht
    simp only [if_true, grow, List.getElem?_append, List.getElem?_replicate] at ht
    split at ht
    · exact .inl ht
    split at ht
    · rw [← Option.some.inj ht]
      exact .inr ⟨rfl, rfl⟩
    · contradiction

end BlockCache

/-- The answers to the allocations of an action. -/
def CacheAction.alloc : CacheAction D → Alloc
  | .read _ _ a | .write _ _ _ a | .getMut _ _ _ a | .install _ _ a => a
  | _ => ⟨false, false, false, false⟩

namespace Volume

variable [Zero D]

/-- Nothing that a fetch pass may have an old copy of is dropped, and no generation comes
round. -/
def ok (v : Volume D) (act : CacheAction D) : Prop :=
  ∀ b, v.allocates act = some b → v.drops act.alloc ∧ v.renews b

/-! ### Taking a slot -/

/-- The slot that is picked: evictable, or (in a cache that has grown as it may) pinned and
without a write on the way. -/
theorem pickSlot_spec {v : Volume D} (h : v.cache.Sound) {a : Alloc} {i : Nat} {evict : Bool}
    {c : BlockCache D} (hp : v.pickSlot a = some ((i, evict), c)) :
    v.cache.Grown c ∧ ∃ s, c.slots[i]? = some s ∧
      (evict = true ∧ s.pinned = false ∨ evict = false ∧ (s.wb = false ∨ v.inflight = false)) := by
  unfold pickSlot at hp
  dsimp only at hp
  -- the cache may grow twice before a slot is picked, to its cap and, with nothing to evict, past it
  generalize hp1 : (_ && decide (v.cache.slots.length < v.cache.cap) && a.grow) = p1 at hp
  have h1 := grown_grow h p1
  generalize (if p1 then v.cache.grow else v.cache) = c1 at hp h1
  generalize hp2 : (c1.lru.isEmpty && decide (c1.slots.length < c1.cap * 2) && a.growPast) = p2 at hp
  have h2 := h1.trans (grown_grow h1.sound p2)
  generalize (if p2 then c1.grow else c1) = c2 at hp h2
  split at hp
  -- the last of the LRU list
  · next j hj =>
    cases hp
    obtain ⟨s, hs, hpin⟩ := h2.sound.evictable i (List.mem_of_getLast? hj)
    exact ⟨h2, s, hs, .inl ⟨rfl, hpin⟩⟩
  split at hp
  -- a dirty slot that no batch holds
  · next j hj =>
    cases hp
    obtain ⟨hlt, hdw, -⟩ := List.findIdx?_eq_some_iff_getElem.mp hj
    rw [Bool.and_eq_true, Bool.not_eq_true'] at hdw
    exact ⟨h2, _, List.getElem?_eq_getElem hlt, .inr ⟨rfl, .inl hdw.2⟩⟩
  · -- the first slot, which only a pool without a running batch offers
    obtain ⟨hno, hp⟩ := Option.ite_none_left_eq_some.mp hp
    cases hp
    rw [Bool.or_eq_true, not_or, Bool.not_eq_true, Bool.not_eq_true, List.isEmpty_eq_false_iff]
      at hno
    have hlt : 0 < c.slots.length := List.length_pos_iff.mpr hno.2
    exact ⟨h2, _, List.getElem?_eq_getElem hlt, .inr ⟨rfl, .inr hno.1⟩⟩

omit [Zero D] in
/-- The condition on generations does not depend on slots. -/
theorem renews_congr {v v' : Volume D} {b : Nat} (hr : v.renews b)
    (hg : v'.cache.gens = v.cache.gens) (hp : v'.pass = v.pass) : v'.renews b := by
  intro who f hf hidx
  rw [hp] at hf
  rw [blkGen_congr hg]
  exact hr who f hf hidx

/-- `take_slot` leaves a coherent volume with a free slot. -/
theorem Inv.takeSlot {v : Volume D} (h : v.Inv) {a : Alloc} (hdrops : v.drops a)
    (hmiss : v.cache.probe ≠ .missed) {i : Nat} {v' : Volume D} (ht : v.takeSlot a = some (i, v')) :
    v'.Inv ∧ (∃ s, v'.cache.slots[i]? = some s ∧ s.blk = none ∧ s.pinned = false ∧ s.uep = 0) ∧
      (v.cache.probe = .off → v'.cache.probe = .off) ∧ v'.cache.probe ≠ .missed ∧
      (∀ {b}, v.renews b → v'.renews b) ∧
      (∀ b, v.cache.cached b = none → v'.cache.cached b = none) ∧
      v' = { v with cache := v'.cache, dev := v'.dev } := by
  obtain ⟨⟨⟨i', evict⟩, c⟩, hpick, he⟩ := Option.map_eq_some_iff.mp ht
  obtain ⟨⟨hsound, hcached, hprobe, hundo, hep, hgens, hold, hnew⟩, s, hs, hcase⟩ :=
    pickSlot_spec h.sound hpick
  have hvictim : ∀ b, s.blk = some b → v.victim a = some (b, s.data) := by
    intro b hb
    simp [victim, hpick, hs, hb]
  have hfresh : ∀ b, s.blk = some b → v.state.Fresh b s.data := by
    rintro b hb f ⟨who, f', hf', rfl⟩ hkey hgen d' hd'
    exact hdrops b s.data (hvictim b hb) who f' hf' hkey hgen d' hd'
  have hview : ∀ b, s.blk = some b → v.state.cached b = some s.entry := by
    intro b hb
    change v.cache.cached b = _
    rw [← hcached]
    exact hsound.distinct.cached_of_slot hs hb
  rcases hcase with ⟨rfl, hpin⟩ | ⟨rfl, hsafe⟩
  · -- The last slot of the evictable list.
    simp only [if_true] at he
    cases he
    have hpin' := hpin
    rw [Slot.pinned, Bool.or_eq_false_iff] at hpin'
    obtain ⟨hs', hself, hc⟩ := hsound.detach hs
    have hview' : Coherent v.real { v.state with cached := (c.detach i).cached } ∧
        (∀ b, v.cache.cached b = none → (c.detach i).cached b = none) ∧
        ∀ {before : Nat → D} {log : List (Nat × Option (Entry D))},
          Undoable v.real v.state before log →
          Undoable v.real { v.state with cached := (c.detach i).cached } before log := by
      rw [hc, hcached]
      cases hb : s.blk with
      | none => exact ⟨h.coherent, fun _ => id, fun hu => hu⟩
      | some b =>
        refine ⟨h.coherent.evict (hview b hb) hpin'.1 hpin'.2 (hfresh b hb), fun k hk => ?_,
          fun hu => hu.evict (hview b hb) hpin'.1⟩
        rw [Option.elim_some, update_apply]
        split
        · rfl
        · exact hk
    obtain ⟨hcoh, hnone, hund⟩ := hview'
    have hstate : ({ v with cache := c.detach i } : Volume D).state =
        { v.state with cached := (c.detach i).cached } := by
      simp [state, todo, blkGen_congr (x := c.detach i) hgens]
    refine ⟨⟨hs', hstate ▸ hcoh, h.landed, h.record,
      fun hr => hprobe.trans (h.idle hr), fun hp => ?_⟩, ⟨_, hself, rfl, hpin, rfl⟩,
      hprobe.trans, hprobe ▸ hmiss, fun hr => renews_congr hr hgens rfl, hnone, rfl⟩
    have hp' : v.cache.probe ≠ .off := fun he => hp (hprobe.trans he)
    obtain ⟨hlog, hu⟩ := h.undo hp'
    have hne : ∀ u ∈ v.cache.undo, u.i ≠ i := by
      rintro u hum rfl
      obtain ⟨t, b, ht, -⟩ := hlog.slot u hum
      obtain rfl := Option.some.inj (hs.symm.trans (hold ht))
      rw [h.logged_dirty hp' hum ht] at hpin'
      cases hpin'.1
    refine ⟨hlog.mono hundo hep (fun u hum t ht => ?_) fun {j t'} ht' hep' => ?_, ?_⟩
    · exact ⟨t, getElem?_modify_eq.mpr
        ⟨t, hold ht, (if_neg (Ne.symm (hne u hum))).symm⟩, rfl, rfl⟩
    · obtain ⟨t, ht, rfl⟩ := getElem?_modify_eq.mp ht'
      have hpos := h.sound.ep
      split at hep'
      · dsimp only at hep'
        omega
      · rcases hnew ht with ht | ⟨-, hz⟩
        · exact ⟨t, ht, hep'⟩
        · omega
    · rw [hstate, log_congr (x := c.detach i) hundo]
      exact hund hu
  · -- A slot that has to be written back first.
    simp only [Bool.false_eq_true] at he
    have hab : c.probeAbandon.slots = c.slots ∧ c.probeAbandon.lru = c.lru ∧
        c.probeAbandon.ep = c.ep ∧ c.probeAbandon.gens = c.gens ∧ c.probeAbandon.probe = .off := by
      unfold probeAbandon
      split
      · exact ⟨rfl, rfl, rfl, rfl, rfl⟩
      · next hon =>
        refine ⟨rfl, rfl, rfl, rfl, ?_⟩
        rw [hprobe] at hon ⊢
        by_contra hp
        exact hon (Probe.eq_on hp hmiss)
    obtain ⟨hab1, hab2, hab3, hab4, hab5⟩ := hab
    generalize c.probeAbandon = c₀ at he hab1 hab2 hab3 hab4 hab5
    have hs₀ : c₀.slots[i']? = some s := by rw [hab1, hs]
    have hsound₀ : c₀.Sound := sound_congr hsound hab1 hab2 hab3
    have hcached₀ : c₀.cached = v.cache.cached := (cached_congr hab1).trans hcached
    obtain ⟨h1, hs1, hc1⟩ := hsound₀.reflag hs₀ false false
    obtain ⟨h2, hself, hc2⟩ := h1.detach hs1
    rw [hs₀] at he
    have hgen : ((c₀.setFlags i' false false).detach i').gens = v.cache.gens := hab4.trans hgens
    have hview' : Coherent v.real
          { v.state with
            cached := ((c₀.setFlags i' false false).detach i').cached
            dev := s.writeTo v.dev } ∧
        ∀ b, v.cache.cached b = none → ((c₀.setFlags i' false false).detach i').cached b = none := by
      rw [hc2, hc1, hcached₀, Slot.writeTo]
      cases hb : s.blk with
      | none => exact ⟨h.coherent, fun _ => id⟩
      | some b =>
        have hm : b ∉ v.state.todo.map Prod.fst := by
          rcases hsafe with hwb | hfl
          · refine h.coherent.not_mem_todo fun e he => ?_
            rw [hview b hb] at he
            rw [← Option.some.inj he]
            exact hwb
          · rw [show v.state.todo = [] from h.landed hfl]
            exact List.not_mem_nil
        have hthrough := (h.coherent.writeThrough (hview b hb) hm).evict (update_self _ _ _)
          rfl rfl (hfresh b hb)
        rw [update_idem] at hthrough
        simp only [Option.elim_some, update_idem]
        refine ⟨hthrough, fun k hk => ?_⟩
        rw [update_apply]
        split
        · rfl
        · exact hk
    obtain ⟨hcoh, hnone⟩ := hview'
    cases he
    refine ⟨⟨h2, ?_, h.landed, h.record,
      fun _ => hab5, fun hp => absurd hab5 hp⟩, ⟨_, hself, rfl, rfl, rfl⟩,
      fun _ => hab5, fun hp => (by cases hab5.symm.trans hp),
      fun hr => renews_congr hr hgen rfl, hnone, rfl⟩
    simp only [state, todo, blkGen_congr hgen] at hcoh ⊢
    exact hcoh

/-! ### Stores and loads -/

section Slots

omit [Zero D]

variable {v : Volume D} {i b : Nat} {s : Slot D} {a : Alloc}

/-- The evictable list or the misses change. -/
theorem Inv.relist (h : v.Inv) {c : BlockCache D} (hsound : c.Sound)
    (hslots : c.slots = v.cache.slots) (hgens : c.gens = v.cache.gens)
    (hundo : c.undo = v.cache.undo) (hep : c.ep = v.cache.ep)
    (hprobe : c.probe ≠ .off → v.cache.probe ≠ .off) : ({ v with cache := c } : Volume D).Inv := by
  have hstate : ({ v with cache := c } : Volume D).state = v.state := by
    simp [state, todo, blkGen_congr hgens, cached_congr hslots]
  refine ⟨hsound, hstate ▸ h.coherent, h.landed, h.record, fun hr => ?_, fun hp => ?_⟩
  · by_contra hp
    exact hprobe hp (h.idle hr)
  obtain ⟨hlog, hu⟩ := h.undo (hprobe hp)
  refine ⟨hlog.mono hundo hep (fun u _ t ht => ⟨t, by rw [hslots, ht], rfl, rfl⟩)
    fun {j t'} ht' he => ⟨t', by rw [← hslots, ht'], he⟩, ?_⟩
  rw [hstate, log_congr hundo]
  exact hu

theorem Inv.noteMiss (h : v.Inv) (b n : Nat) :
    ({ v with cache := v.cache.noteMiss b n } : Volume D).Inv := by
  unfold BlockCache.noteMiss
  dsimp only
  split
  · next hp =>
    refine h.relist (sound_congr h.sound rfl rfl rfl) rfl rfl rfl rfl fun _ => ?_
    rw [hp]
    nofun
  · split <;> exact h.relist (sound_congr h.sound rfl rfl rfl) rfl rfl rfl rfl id
  · exact h

section

variable (hsound : v.cache.Sound) (hi : v.cache.slots[i]? = some s) (hb : s.blk = some b) (d : D)
include hsound hi hb

/-- What `store` does to the cache. -/
theorem store_cache : (v.store i b d).cache.Sound ∧ (v.store i b d).cache.cached =
        update v.cache.cached b (some { s.entry with data := d, dirty := true }) ∧
      (v.cache.Logged → (v.store i b d).cache.Logged) := by
  have hu := hsound.uep hi
  obtain ⟨hsound1, hi1, hc1⟩ := hsound.edit (f := fun s => { s with data := d }) hi rfl rfl hu
  -- `store` sets the data and then the flags, and the flag it reads is the old one
  have hwb : ((v.cache.modifySlot i fun s => { s with data := d }).slots[i]?).any Slot.wb = s.wb := by
    rw [hi1]
    rfl
  have hcache : (v.store i b d).cache =
      (v.cache.modifySlot i fun s => { s with data := d }).setFlags i true s.wb := by
    simp [store, hwb]
  obtain ⟨hsound2, -, hc2⟩ := hsound1.reflag hi1 true s.wb
  rw [hcache]
  refine ⟨hsound2, ?_, fun hlog => ?_⟩
  · simp only [hc2, hc1, hb, Option.elim_some, update_idem]
    rfl
  · have hlog1 : (v.cache.modifySlot i fun s => { s with data := d }).Logged :=
      hlog.edit rfl rfl rfl hi rfl rfl
    exact hlog1.edit rfl rfl rfl hi1 rfl rfl

theorem store_state : (v.store i b d).state =
      { v.state with
        cached := update v.state.cached b (some { s.entry with data := d, dirty := true })
        stored := update v.state.stored b d } := by
  simp only [state, (store_cache hsound hi hb d).2.1]
  rfl

end

/-- A change of a cached block. -/
theorem Inv.storeHit (h : v.Inv) (hi : v.cache.slots[i]? = some s) (hb : s.blk = some b)
    (hmiss : v.cache.probe ≠ .missed) (a : Alloc) (d : D) :
    ({ v with cache := v.cache.logSlot i false a }.store i b d).Inv := by
  obtain ⟨hsound, hcached, hgens, s', hi', hb', he'⟩ := logSlot_spec hi false a h.sound hb
  have hview : v.state.cached b = some s.entry := h.sound.distinct.cached_of_slot hi hb
  obtain ⟨hsound2, -, hlog2⟩ := store_cache (v := { v with cache := v.cache.logSlot i false a })
    hsound hi' hb' d
  have hstate := store_state (v := { v with cache := v.cache.logSlot i false a }) hsound hi' hb' d
  -- logging leaves the cached blocks alone
  have hstate₀ : ({ v with cache := v.cache.logSlot i false a } : Volume D).state = v.state := by
    simp [state, todo, hcached, blkGen_congr hgens]
  rw [hstate₀, he'] at hstate
  obtain ⟨hidle, hlogged⟩ := logSlot_logged hi false a hb hmiss
  refine ⟨hsound2, hstate ▸ h.coherent.store hview d, h.landed, h.record,
    fun hr => hidle (h.idle hr), fun hp => ?_⟩
  obtain ⟨hp', hcase⟩ := hlogged hp
  obtain ⟨hlog, hu⟩ := h.undo hp'
  -- the block is in the log exactly if its slot has the mark of this epoch
  have hmem := hlog.mem_iff h.sound.distinct hi hb
  change _ ∧ Undoable v.real _ v.before (v.cache.logSlot i false a).log
  rw [hstate]
  rcases hcase with ⟨he, hep⟩ | ⟨hne, hkeep, hlog'⟩
  · rw [he] at hlog2 ⊢
    exact ⟨hlog2 hlog, hu.store hview (hmem.mpr hep) d⟩
  · rw [hlog']
    exact ⟨hlog2 (hkeep hlog), hu.store_new h.coherent hview (fun hm => hne (hmem.mp hm)) d⟩

/-- A generation that moves as it should. -/
theorem moves_install (hr : v.renews b) {c : BlockCache D} (hg : c.gens = v.cache.gens) (i : Nat) :
    v.state.Moves b (c.install i b).blkGen := by
  rintro f ⟨who, f', hf', rfl⟩ hgen
  have hblk : ∀ k, c.blkGen k = v.cache.blkGen k := fun k => congrFun (blkGen_congr hg) k
  rw [blkGen_install] at hgen
  split at hgen
  · next hidx =>
    rw [hblk] at hgen
    exact absurd hgen.symm (hr who f' hf' hidx)
  · next hidx =>
    refine ⟨(hblk _).symm.trans hgen, ?_⟩
    rintro rfl
    exact hidx rfl

variable (h : v.Inv) (hi : v.cache.slots[i]? = some s) (hfree : s.blk = none)
  (hpin : s.pinned = false) (hnone : v.cache.cached b = none) (hr : v.renews b)
include h hi hfree hpin hnone hr

/-- A free slot gets a block and its contents. -/
theorem Inv.fill (hoff : v.cache.probe = .off) {d : D} (hd : v.real b → d = v.stored b) :
    ({ v with
        cache := (v.cache.modifySlot i fun s => { s with data := d }).install i b } : Volume D).Inv ∧
      ∃ t, ((v.cache.modifySlot i fun s => { s with data := d }).install i b).slots[i]? = some t ∧
        t.blk = some b := by
  have hu := h.sound.uep hi
  obtain ⟨hsound1, hi1, hc1⟩ := h.sound.edit (f := fun s => { s with data := d }) hi rfl rfl hu
  -- the slot held nothing, so the new data changes no cached block
  rw [hfree, Option.elim_none] at hc1
  have hfind : (v.cache.modifySlot i fun s => { s with data := d }).find b = none := by
    rw [← cached_eq_none, hc1, hnone]
  obtain ⟨hsound2, hc2⟩ := install_spec hsound1 hi1 hfree hfind
  have hentry : ({ s with data := d } : Slot D).entry = ⟨d, false, false⟩ := by
    rw [Slot.pinned, Bool.or_eq_false_iff] at hpin
    simp [Slot.entry, hpin.1, hpin.2]
  -- no probe is on, so there is no log to speak of
  have hoff' : ((v.cache.modifySlot i fun s => { s with data := d }).install i b).probe = .off := by
    rw [probe_install]
    exact hoff
  refine ⟨⟨hsound2, ?_, h.landed, h.record, fun _ => hoff', fun hp => absurd hoff' hp⟩, ?_⟩
  · have hcoh := h.coherent.fill hnone hd (moves_install hr (c := v.cache.modifySlot i
      fun s => { s with data := d }) rfl i)
    simp only [state, hc2, hc1, hentry]
    exact hcoh
  · rw [slots_install]
    exact ⟨_, getElem?_modify_self hi1, rfl⟩

/-- A block that is not cached gets contents. -/
theorem Inv.create (huep : s.uep = 0) (hmiss : v.cache.probe ≠ .missed) (a : Alloc) (d : D) :
    ({ v with cache := (v.cache.install i b).logSlot i true a }.store i b d).Inv := by
  -- install, log, store: each step with its own description of the cache
  have hfind : v.cache.find b = none := cached_eq_none.mp hnone
  obtain ⟨hsound1, hc1⟩ := install_spec h.sound hi hfree hfind
  have hi1 : (v.cache.install i b).slots[i]? = some { s with blk := some b } := by
    rw [slots_install]
    exact getElem?_modify_self hi
  obtain ⟨hsound2, hc2, hgens, s', hi', hb', he'⟩ :=
    logSlot_spec hi1 true a hsound1 rfl
  obtain ⟨hsound3, -, hlog3⟩ :=
    store_cache (v := { v with cache := (v.cache.install i b).logSlot i true a }) hsound2 hi' hb' d
  have hstate := store_state (v := { v with cache := (v.cache.install i b).logSlot i true a })
    hsound2 hi' hb' d
  -- a free slot has no copy on its way to the device
  have hentry : ({ s'.entry with data := d, dirty := true } : Entry D) = ⟨d, true, false⟩ := by
    rw [Slot.pinned, Bool.or_eq_false_iff] at hpin
    rw [he']
    simp [Slot.entry, hpin.2]
  have hstate' : ({ v with cache := (v.cache.install i b).logSlot i true a }.store i b d).state =
      { v.state with
        cached := update v.state.cached b (some ⟨d, true, false⟩)
        stored := update v.state.stored b d
        gen := (v.cache.install i b).blkGen } := by
    rw [hstate, hentry]
    simp [state, todo, hc2, hc1, update_idem, blkGen_congr hgens]
  have hmoves := moves_install hr rfl i
  have hcoh := h.coherent.create hnone hmoves d
  obtain ⟨hidle, hlogged⟩ := logSlot_logged hi1 true a rfl (by rwa [probe_install])
  rw [probe_install, ep_install] at *
  refine ⟨hsound3, hstate' ▸ hcoh, h.landed, h.record, fun hr => hidle (h.idle hr), fun hp => ?_⟩
  obtain ⟨hp', hcase⟩ := hlogged hp
  obtain ⟨hlog, hu⟩ := h.undo hp'
  change _ ∧ Undoable v.real _ v.before ((v.cache.install i b).logSlot i true a).log
  rw [hstate']
  rcases hcase with ⟨-, hep⟩ | ⟨-, hkeep, hlog'⟩
  -- a slot that comes free has no mark of this epoch, so it is logged now
  · have hpos := h.sound.ep
    dsimp only at hep
    omega
  rw [hlog', log_congr (undo_install ..)]
  refine ⟨hlog3 (hkeep ?_), hu.create h.coherent hnone hmoves d⟩
  refine hlog.mono (undo_install ..) (ep_install ..) (fun u hum t ht => ?_)
    fun {j t'} ht' hep => ?_
  · -- the slots of the log hold blocks, so none of them is the one taken
    refine ⟨t, ?_, rfl, rfl⟩
    rw [slots_install]
    refine getElem?_modify_eq.mpr ⟨t, ht, (if_neg ?_).symm⟩
    rintro rfl
    obtain ⟨t, b', ht, htb, -⟩ := hlog.slot u hum
    cases hi.symm.trans ht
    rw [hfree] at htb
    contradiction
  · rw [slots_install] at ht'
    obtain ⟨t, ht, rfl⟩ := getElem?_modify_eq.mp ht'
    exact ⟨t, ht, by split at hep <;> exact hep⟩

end Slots

end Volume

end Leandros.F2fs
