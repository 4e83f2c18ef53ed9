import Leandros.F2fs.Cache.Coherence

/-!
# Leandros.F2fs.Cache.Run

**The cache returns what was last stored, in every run.** The steps of a request, of a fetch
pass and of a checkpoint keep the invariant; the end of a doomed request takes back what it
stored.

* A request loads, writes and changes blocks under the lock of the mount. One that must not do I/O
  runs as a probe: it logs what it changes, and if it misses it is undone and run again after a
  fetch pass has read the missing blocks (`Inv.undone`).
* A fetch pass reads without the lock. What it read is installed only if the block is still absent
  and its generation is the one captured (`Inv.installFetched`).
* A checkpoint marks the dirty slots, writes their copies and unpins them (`Inv.phase1` to
  `Inv.phase3`), or does all of it at once (`Inv.flushAll`).

A generation can miss a change: dropping a block does not renew it, and it is a `u32` that several
blocks share. `Volume.ok` asks of a slot that is taken that no pass has an older copy of the block
it drops and that no pass has the next generation; `stale_block_read` is a run without that.
-/

namespace Leandros.F2fs

open Function (update update_apply update_of_ne update_self)
open BlockCache
open Option (any_eq_true map_eq_some_iff map_some)

open WriteBack (Entry Coherent Undoable Holds)

variable {D : Type}

namespace Volume

variable {v v' : Volume D} {b : Nat} {a : Alloc}

section Requests

variable [Zero D]

/-- `load` leaves the volume coherent, and the slot it returns has the block. -/
theorem Inv.load (h : v.Inv) {o : Option Nat} (hl : v.load b a = some (o, v'))
    (hok : v.cache.find b = none → v.cache.probe = .off → v.drops a ∧ v.renews b) :
    v'.Inv ∧ v' = { v with cache := v'.cache, dev := v'.dev } ∧
      ∀ i, o = some i → v'.cache.probe = v.cache.probe ∧
        ∃ s, v'.cache.slots[i]? = some s ∧ s.blk = some b := by
  unfold Volume.load at hl
  cases hf : v.cache.find b with
  | some =>
    rw [hf] at hl
    cases hl
    -- a hit: the slot moves to the front of the list
    obtain ⟨s, hs, hb⟩ := find_eq_some hf
    refine ⟨h.relist (h.sound.touch hs) (by simp) (by simp) (by simp) (by simp) (by simp), rfl, ?_⟩
    rintro _ ⟨⟩
    exact ⟨probe_touch _ _, s, by rw [slots_touch, hs], hb⟩
  | none =>
    rw [hf] at hl
    dsimp only at hl
    split at hl
    · next hp =>
      -- a miss of a probe is noted and nothing is read
      cases hl
      exact ⟨h.noteMiss b 1, rfl, nofun⟩
    · next hp =>
      rw [not_not] at hp
      -- a miss that may read: a slot is taken and filled from the device
      obtain ⟨hdrops, hrenews⟩ := hok hf hp
      obtain ⟨⟨i, v1⟩, ht, he⟩ := map_eq_some_iff.mp hl
      cases he
      obtain ⟨h1, ⟨s, hs, hfree, hpin, -⟩, hoff, -, hrenew, habs, hsame⟩ :=
        h.takeSlot hdrops (by rw [hp]; nofun) ht
      have hnone : v1.cache.cached b = none := habs b (cached_eq_none.mpr hf)
      obtain ⟨hinv, t, hti, htb⟩ := h1.fill hs hfree hpin hnone (hrenew hrenews) (hoff hp)
        fun hreal => h1.coherent.dev_of_absent hreal hnone
      refine ⟨hinv, ?_, ?_⟩
      · rw [hsame]
      rintro _ ⟨⟩
      refine ⟨?_, t, hti, htb⟩
      rw [probe_install, hp]
      exact hoff hp

/-- A request that gets no slot is doomed. -/
theorem load_eq_none (hl : v.load b a = some (none, v')) : v'.cache.probe = .missed := by
  unfold Volume.load at hl
  split at hl
  · cases hl
  split at hl
  · next hp =>
    cases hl
    dsimp only [noteMiss]
    split
    · rfl
    · next hm => split <;> exact hm
    · next ho => exact absurd ho hp
  · obtain ⟨r, -, he⟩ := map_eq_some_iff.mp hl
    cases he

/-- `write`. -/
theorem Inv.write (h : v.Inv) {d : D} (hw : v.write b d a = some v')
    (hok : v.cache.find b = none → v.cache.probe ≠ .missed → v.drops a ∧ v.renews b) : v'.Inv := by
  unfold Volume.write at hw
  split at hw
  · -- the probe has missed: the write is left for the request that runs again
    cases hw
    exact h
  · next hp =>
    cases hf : v.cache.find b with
    | some =>
      rw [hf] at hw
      cases hw
      obtain ⟨s, hs, hb⟩ := find_eq_some hf
      exact h.storeHit hs hb hp a d
    | none =>
      rw [hf] at hw
      -- a block that is not cached is not read first, as the whole of it is written
      obtain ⟨hdrops, hrenews⟩ := hok hf hp
      obtain ⟨⟨i, v1⟩, ht, rfl⟩ := map_eq_some_iff.mp hw
      obtain ⟨h1, ⟨s, hs, hfree, hpin, huep⟩, -, hp1, hrenew, habs, -⟩ :=
        h.takeSlot hdrops hp ht
      exact h1.create hs hfree hpin (habs b (cached_eq_none.mpr hf)) (hrenew hrenews) huep hp1 a d

/-- `get_mut` and the change made through it. -/
theorem Inv.getMut (h : v.Inv) {f : D → D} (hg : v.getMut b f a = some v')
    (hok : v.cache.find b = none → v.cache.probe = .off → v.drops a ∧ v.renews b) : v'.Inv := by
  unfold Volume.getMut at hg
  split at hg
  · cases hg
    exact h
  · next hp =>
    obtain ⟨⟨o, v1⟩, hl, rfl⟩ := map_eq_some_iff.mp hg
    obtain ⟨h1, -, hslot⟩ := h.load hl hok
    cases o with
    | none => exact h1
    | some i =>
      obtain ⟨hprobe, s, hs, hb⟩ := hslot i rfl
      exact h1.storeHit hs hb (hprobe ▸ hp) a (f (v1.data i))

/-- `install_fetched`. -/
theorem Inv.installFetched (h : v.Inv) {who : Nat} {f : Fetch D} (hfm : f ∈ v.pass who)
    (hoff : v.cache.probe = .off) (hi : v.installFetched f a = some v')
    (hok : f.data.isSome → v.cache.find f.blk = none → v.cache.blkGen f.blk = f.gen →
      v.drops a ∧ v.renews f.blk) : v'.Inv := by
  unfold Volume.installFetched at hi
  cases hd : f.data with
  | none =>
    rw [hd] at hi
    contradiction
  | some d =>
    rw [hd] at hi
    dsimp only at hi
    split at hi
    · cases hi
      exact h
    · next hn =>
      rw [not_or, not_not, Bool.not_eq_true, Option.isSome_eq_false_iff, Option.isNone_iff_eq_none]
        at hn
      obtain ⟨hf, hgen⟩ := hn
      obtain ⟨hdrops, hrenews⟩ := hok (by rw [hd]; rfl) hf hgen
      have hnone : v.cache.cached f.blk = none := cached_eq_none.mpr hf
      -- The generation says that the block was never cached since the pass was planned.
      have hread : v.real f.blk → d = v.stored f.blk := fun hreal =>
        h.coherent.fetched ⟨f.blk, f.gen, f.data⟩ ⟨who, f, hfm, rfl⟩ hreal hgen hnone d hd
      obtain ⟨⟨i, v1⟩, ht, rfl⟩ := map_eq_some_iff.mp hi
      obtain ⟨h1, ⟨s, hs, hfree, hpin, -⟩, hoff1, -, hrenew, habs, hsame⟩ :=
        h.takeSlot hdrops (by rw [hoff]; nofun) ht
      have hread1 : v1.real f.blk → d = v1.stored f.blk := by
        rw [hsame]
        exact hread
      exact (h1.fill hs hfree hpin (habs _ hnone) (hrenew hrenews) (hoff1 hoff) hread1).1

end Requests

/-! ### The ends of a request -/

/-- A request starts. -/
theorem Inv.start (h : v.Inv) (who : Nat) (noio : Bool) :
    ({ v with
        cache := if noio then v.cache.probeStart else { v.cache with probe := .off }
        request := some who
        before := v.stored } : Volume D).Inv := by
  cases noio with
  -- a request that may do I/O runs without a probe
  | false =>
    have h' := h.relist (c := { v.cache with probe := .off })
      (sound_congr h.sound rfl rfl rfl) rfl rfl rfl rfl (fun hp => absurd rfl hp)
    exact ⟨h'.sound, h'.coherent, h'.landed, h'.record, fun _ => rfl, fun hp => absurd rfl hp⟩
  | true =>
    have hsound : v.cache.probeStart.Sound :=
      ⟨h.sound.distinct, h.sound.nodup, h.sound.evictable,
        fun hi => Nat.le_succ_of_le (h.sound.uep hi), Nat.succ_pos _⟩
    refine ⟨hsound, h.coherent, h.landed, h.record, nofun,
      fun _ => ⟨⟨nofun, fun {i s} hi hep => ?_⟩, ?_⟩⟩
    · -- marks are at most the old epoch, and the probe has the next one
      have hle := h.sound.uep hi
      change s.uep = v.cache.ep + 1 at hep
      omega
    · exact ⟨List.nodup_nil, nofun, fun _ _ _ => rfl⟩

variable {c : BlockCache D}

/-- The undo loop: the view is what it was, and stores are as they were. -/
theorem undo_fold {real : Nat → Prop} {before : Nat → D} (l : List (Undo D))
    {w : WriteBack.State Nat D} (hs : c.Sound) (hw : w.cached = c.cached)
    (hslot : ∀ u ∈ l, ∃ (s : Slot D) (b : Nat), c.slots[u.i]? = some s ∧ s.blk = some b ∧
      u.blk = some b) (hcoh : Coherent real w)
    (hund : Undoable real w before ({ c with undo := l } : BlockCache D).log) :
    (l.foldl undoOne c).Sound ∧ (l.foldl undoOne c).gens = c.gens ∧
      (l.foldl undoOne c).probe = c.probe ∧
      Coherent real
        { w with cached := (l.foldl undoOne c).cached, stored := before } := by
  induction l generalizing c w with
  | nil =>
    refine ⟨hs, rfl, rfl, ?_⟩
    have hagree := hcoh.agree fun k hk => hund.rest k hk nofun
    rw [List.foldl_nil, ← hw]
    exact hagree
  | cons u l ih =>
    obtain ⟨s, b, hi, hb, hub⟩ := hslot u (.head _)
    obtain ⟨hs1, hg1, hp1, hc1, hk1⟩ := undoOne_spec hs hi hb hub
    have hlog : ({ c with undo := u :: l } : BlockCache D).log =
        (b, u.data.map fun d => ⟨d, u.dirty, u.wb⟩) ::
          ({ c.undoOne u with undo := l } : BlockCache D).log := by
      simp only [log, List.filterMap_cons, hub, map_some]
    rw [hlog] at hund
    obtain ⟨hcoh1, hund1⟩ := hund.undo hcoh
    -- A block is logged once, so the other records are of other slots.
    have hslot1 : ∀ u' ∈ l, ∃ (s : Slot D) (b : Nat),
        (c.undoOne u).slots[u'.i]? = some s ∧ s.blk = some b ∧ u'.blk = some b := by
      intro u' hu'
      obtain ⟨s', b', hi', hb', hub'⟩ := hslot u' (.tail _ hu')
      refine ⟨s', b', hk1 (fun hij => ?_) hi', hb', hub'⟩
      rw [hij] at hi'
      cases hi.symm.trans hi'
      cases hb.symm.trans hb'
      exact (List.nodup_cons.mp hund.nodup).1 (mem_log.mpr ⟨u', hu', hub'⟩)
    obtain ⟨hs2, hg2, hp2, hcoh2⟩ := ih hs1 (by rw [hc1, hw]) hslot1 hcoh1 hund1
    exact ⟨hs2, hg2.trans hg1, hp2.trans hp1, hcoh2⟩

section

variable (h : v.Inv)
include h

/-- The end of a request that was not doomed. -/
theorem Inv.finish :
    ({ v with
        cache := { v.cache with probe := .off, undo := [] }
        request := none } : Volume D).Inv :=
  ⟨sound_congr h.sound rfl rfl rfl, h.coherent, h.landed, h.record, fun _ => rfl,
    fun hp => absurd rfl hp⟩

/-- The end of a doomed request. -/
theorem Inv.undone (hp : v.cache.probe = .missed) (who : Nat)
    (ranges : List FetchRange) :
    ({ v with
        cache := { v.cache.undo.foldl undoOne { v.cache with probe := .off } with
          undo := [] }
        request := none
        pass := update v.pass who
          (capture { v.cache.undo.foldl undoOne { v.cache with probe := .off }
            with undo := [] } ranges)
        stored := v.before } : Volume D).Inv := by
  obtain ⟨hlog, hund⟩ := h.undo (by rw [hp]; nofun)
  have hs₀ : ({ v.cache with probe := .off } : BlockCache D).Sound :=
    sound_congr h.sound rfl rfl rfl
  -- every record of the log is about a slot that still holds its block
  obtain ⟨hs, hg, hoff, hcoh⟩ := undo_fold (w := v.state) v.cache.undo hs₀ rfl
    (fun u hu => by
      obtain ⟨s, b, hi, hb, hub, -⟩ := hlog.slot u hu
      exact ⟨s, b, hi, hb, hub⟩)
    h.coherent hund
  generalize hc : v.cache.undo.foldl undoOne { v.cache with probe := .off } = c
    at hs hg hoff hcoh
  refine ⟨sound_congr hs rfl rfl rfl, ?_, h.landed, h.record, fun _ => hoff,
    fun hne => absurd hoff hne⟩
  have hgen : c.blkGen = v.cache.blkGen := blkGen_congr hg
  simp only [state] at hcoh ⊢
  rw [← hgen] at hcoh
  refine hcoh.fetch ?_
  rintro f ⟨w, f', hf', rfl⟩
  -- the fetches of the request are new and have no data; those of others stay
  by_cases hw : w = who
  · subst hw
    rw [update_self] at hf'
    simp only [capture, List.mem_flatMap, List.mem_map] at hf'
    obtain ⟨-, -, -, -, rfl⟩ := hf'
    exact .inl rfl
  · rw [update_of_ne hw] at hf'
    exact .inr (.inl ⟨w, f', hf', rfl⟩)

/-! ### Fetch passes -/

/-- The passes of the volume change: what is new was read from the device now. -/
theorem Inv.repass {pass : Nat → List (Fetch D)}
    (hnew : ∀ who, ∀ f ∈ pass who, f ∈ v.pass who ∨
      ∃ f₀ ∈ v.pass who, f = { f₀ with data := some (v.dev f₀.blk) }) :
    ({ v with pass } : Volume D).Inv := by
  -- a fetch of the new pass is an old one, perhaps with the data of the device
  have hold : ∀ f ∈ ({ v with pass } : Volume D).state.fetches,
      f ∈ v.state.fetches ∨ ∃ f₀ ∈ v.state.fetches, f = { f₀ with data := some (v.dev f₀.key) } := by
    rintro f ⟨who, f', hf', rfl⟩
    rcases hnew who f' hf' with hf' | ⟨f₀, hf₀, rfl⟩
    · exact .inl ⟨who, f', hf', rfl⟩
    · exact .inr ⟨_, ⟨who, f₀, hf₀, rfl⟩, rfl⟩
  refine ⟨h.sound, h.coherent.fetch fun f hf => ?_, h.landed, h.record, h.idle, fun hp => ?_⟩
  · rcases hold f hf with hf | ⟨f₀, -, rfl⟩
    · exact .inr (.inl hf)
    · exact .inr (.inr rfl)
  · obtain ⟨hlog, hund⟩ := h.undo hp
    refine ⟨hlog, hund.fetch fun f hf => ?_⟩
    rcases hold f hf with hf | ⟨f₀, hf₀, rfl⟩
    · exact ⟨f, hf, rfl, rfl⟩
    · exact ⟨f₀, hf₀, rfl, rfl⟩

/-- A block of a pass is read. -/
theorem Inv.fetch (who k : Nat) :
    ({ v with
        pass := update v.pass who
          ((v.pass who).modify k fun f => { f with data := some (v.dev f.blk) }) } :
      Volume D).Inv := by
  refine h.repass fun w f hf => ?_
  by_cases hw : w = who
  · subst hw
    -- one fetch of the pass got its data
    rw [update_self] at hf
    obtain ⟨j, hj⟩ := List.getElem?_of_mem hf
    rw [List.getElem?_modify, Option.map_eq_map, map_eq_some_iff] at hj
    obtain ⟨f₀, hf₀, rfl⟩ := hj
    have hm := List.mem_of_getElem? hf₀
    split
    · exact .inr ⟨f₀, hm, rfl⟩
    · exact .inl hm
  · rw [update_of_ne hw] at hf
    exact .inl hf

/-- A pass ends. -/
theorem Inv.passDone (who : Nat) :
    ({ v with pass := update v.pass who [] } : Volume D).Inv := by
  refine h.repass fun w f hf => .inl ?_
  by_cases hw : w = who
  · subst hw
    rw [update_self] at hf
    contradiction
  · rw [update_of_ne hw] at hf
    exact hf

/-! ### Checkpoints -/

omit h in
theorem mem_snapshot (h : v.cache.Sound) {p : Slot D → Bool} {q : Entry D → Bool}
    (hpq : ∀ s, p s = q s.entry) {k : Nat} {d : D} :
    (k, d) ∈ v.snapshot p ↔ ∃ e, v.cache.cached k = some e ∧ q e = true ∧ e.data = d := by
  unfold snapshot
  rw [(List.perm_insertionSort _ _).mem_iff]
  simp only [List.mem_filterMap, List.mem_filter, map_eq_some_iff, Prod.mk.injEq]
  constructor
  · rintro ⟨s, ⟨hs, hps⟩, b, hb, rfl, rfl⟩
    obtain ⟨i, hi⟩ := List.getElem?_of_mem hs
    exact ⟨s.entry, h.distinct.cached_of_slot hi hb, (hpq s).symm.trans hps, rfl⟩
  · rintro ⟨e, he, hqe, rfl⟩
    obtain ⟨i, s, hi, hb, rfl⟩ := h.distinct.cached_eq_some.mp he
    exact ⟨s, ⟨List.mem_of_getElem? hi, (hpq s).trans hqe⟩, k, hb, rfl, rfl⟩

/-- Phase 1. -/
theorem Inv.phase1 (hidle : v.request = none) (hcp : v.cp = none) (record : D) :
    (v.phase1 record).Inv := by
  -- no checkpoint runs, so no write is on its way
  have hnone : v.state.todo = [] := by
    simp only [state, todo, hcp]
  obtain ⟨hd, hcached⟩ := cached_map h.sound.distinct
    (x := (v.phase1 record).cache) (g := fun e =>
      if e.dirty then { e with dirty := false, wb := true } else e) rfl
    (fun s => by split <;> rfl) (fun s => by cases hs : s.dirty <;> simp [Slot.entry, hs])
  have hsound : (v.phase1 record).cache.Sound := by
    refine ⟨hd, h.sound.nodup, fun i hi => ?_, fun {i s} hi => ?_, h.sound.ep⟩
    · -- an evictable slot is clean, and the snapshot leaves it as it is
      obtain ⟨s, hs, hpin⟩ := h.sound.evictable i hi
      refine ⟨s, ?_, hpin⟩
      rw [Slot.pinned, Bool.or_eq_false_iff] at hpin
      simp only [Volume.phase1, List.getElem?_map, hs, map_some, hpin.1, Bool.false_eq_true,
        if_false]
    · simp only [Volume.phase1, List.getElem?_map, map_eq_some_iff] at hi
      obtain ⟨t, ht, rfl⟩ := hi
      have hle := h.sound.uep ht
      split <;> exact hle
  have hoff : v.cache.probe = .off := h.idle hidle
  refine ⟨hsound, ?_, by simp [Volume.phase1], ?_, fun _ => hoff, fun hp => absurd hoff hp⟩
  · have hmark := h.coherent.mark hnone fun k d =>
      mem_snapshot h.sound (p := Slot.dirty) (q := Entry.dirty) fun _ => rfl
    simp only [state, hcached]
    exact hmark
  · -- the record goes to the pack that is not the active one
    rintro k ⟨⟩ ⟨h1, h2⟩
    split at h1
    · next hact => exact h2 (if_pos hact)
    · exact h1 rfl

/-- A block of the snapshot is written. -/
theorem Inv.writeBack {runs todo : List (Nat × D)} {r record : Nat × D}
    (hcp : v.cp = some ⟨runs, r :: todo, record⟩) :
    ({ v with dev := update v.dev r.1 r.2, cp := some ⟨runs, todo, record⟩ } : Volume D).Inv := by
  have htodo : v.state.todo = r :: todo := by
    simp only [state, Volume.todo, hcp]
  refine ⟨h.sound, h.coherent.land htodo, fun hfl => ?_, ?_, h.idle, fun hp => ?_⟩
  · have := h.landed hfl
    rw [show v.todo = r :: todo from htodo] at this
    contradiction
  · rintro k ⟨⟩
    have hrec := h.record _ hcp
    exact hrec
  · obtain ⟨hlog, hund⟩ := h.undo hp
    exact ⟨hlog, hund.land htodo⟩

/-- The commit block is written. -/
theorem Inv.commit {runs : List (Nat × D)} {record : Nat × D}
    (hcp : v.cp = some ⟨runs, [], record⟩) :
    ({ v with dev := update v.dev record.1 record.2, inflight := false } : Volume D).Inv := by
  have hnone : v.state.todo = [] := by
    simp only [state, Volume.todo, hcp]
  have hrec : ¬ v.real record.1 := h.record _ hcp
  refine ⟨h.sound, h.coherent.around hrec record.2, fun _ => hnone, h.record, h.idle,
    fun hp => ?_⟩
  obtain ⟨hlog, hund⟩ := h.undo hp
  exact ⟨hlog, hund.around hrec record.2⟩

end

/-- What unpinning does to a cache. -/
structure Unpinned (c x : BlockCache D) : Prop where
  sound : x.Sound
  gens : x.gens = c.gens
  probe : x.probe = c.probe
  cached : ∀ k, x.cached k = c.cached k ∨
    ∃ e, c.cached k = some e ∧ x.cached k = some { e with wb := false }

/-- Unpinning takes the write-back bit from some entries and does nothing else. -/
theorem unpin_spec (runs : List (Nat × D)) (h : c.Sound) : Unpinned c (unpin c runs) := by
  -- the claim is about any cache on the way from `c`, as the fold needs it
  suffices hfold : ∀ (runs : List (Nat × D)) (x : BlockCache D), Unpinned c x →
      Unpinned c (unpin x runs) from hfold runs c ⟨h, rfl, rfl, fun _ => .inl rfl⟩
  intro runs
  induction runs with
  | nil => exact fun _ hx => hx
  | cons r runs ih =>
    intro x hx
    rw [unpin, List.foldl_cons]
    refine ih _ ?_
    split
    · next i hf =>
      obtain ⟨s, hs, hb⟩ := find_eq_some hf
      rw [hs]
      dsimp only
      split
      · next hwb =>
        -- the copy has landed: this flag goes and the dirty bit stays
        obtain ⟨hs', -, hcached⟩ := hx.sound.reflag hs s.dirty false
        refine ⟨hs', hx.gens, hx.probe, fun k => ?_⟩
        rw [hcached, hb, Option.elim_some, update_apply]
        split
        · next hk =>
          subst hk
          have hxk := hx.sound.distinct.cached_of_slot hs hb
          rcases hx.cached r.1 with hsame | ⟨e, he, hnew⟩
          · exact .inr ⟨s.entry, hsame ▸ hxk, rfl⟩
          -- an entry whose flag went before cannot have it now
          rw [hxk] at hnew
          have hno : s.wb = false := congrArg Entry.wb (Option.some.inj hnew)
          rw [hwb] at hno
          contradiction
        · exact hx.cached k
      · exact hx
    · exact hx

/-- Phase 3. -/
theorem Inv.phase3 (h : v.Inv) (hidle : v.request = none) (hfl : v.inflight = false)
    (runs : List (Nat × D)) :
    ({ v with cache := unpin v.cache runs, cp := none } : Volume D).Inv := by
  have hnone : v.state.todo = [] := h.landed hfl
  have hu := unpin_spec runs h.sound
  have hoff : (unpin v.cache runs).probe = .off := hu.probe.trans (h.idle hidle)
  refine ⟨hu.sound, ?_, fun _ => rfl, nofun, fun _ => hoff, fun hp => absurd hoff hp⟩
  have hcoh := h.coherent.unpin hnone hu.cached
  simp only [state, blkGen_congr hu.gens]
  rw [hnone] at hcoh
  exact hcoh

/-- The loop of `flush_all` over the slots. -/
theorem clean_fold (n : Nat) (h : c.Sound) :
    let x := (List.range n).foldl (fun c i => if c.pinned i then c.setFlags i false false else c) c
    x.Sound ∧ x.gens = c.gens ∧ x.probe = c.probe ∧ ∀ j, x.slots[j]? =
        (c.slots[j]?).map fun s => if j < n then { s with dirty := false, wb := false } else s := by
  induction n with
  | zero => exact ⟨h, rfl, rfl, fun j => by simp⟩
  | succ n ih =>
    rw [List.range_succ, List.foldl_append, List.foldl_cons, List.foldl_nil]
    generalize (List.range n).foldl (fun c i => if c.pinned i then c.setFlags i false false else c)
      c = x at ih
    obtain ⟨hs, hg, hp, hslots⟩ := ih
    have hlt : ∀ j, j ≠ n → (j < n + 1 ↔ j < n) := fun j hj => by omega
    cases hn : c.slots[n]? with
    | none =>
      -- there is no such slot
      have hx : x.pinned n = false := by simp [pinned, hslots, hn]
      simp only [hx, Bool.false_eq_true, if_false]
      refine ⟨hs, hg, hp, fun j => ?_⟩
      by_cases hj : j = n
      · rw [hslots, hj, hn]
        rfl
      · simp only [hslots, hlt j hj]
    | some s =>
      have hxn : x.slots[n]? = some s := by simp [hslots, hn]
      rw [pinned_eq hxn]
      split
      · refine ⟨hs.setFlags hxn _ _, hg, hp, fun j => ?_⟩
        simp only [setFlags, modifySlot, List.getElem?_modify, hslots]
        by_cases hj : j = n
        · subst hj
          simp [hn]
        · simp [hlt j hj, Ne.symm hj]
      · next hpin =>
        refine ⟨hs, hg, hp, fun j => ?_⟩
        by_cases hj : j = n
        · subst hj
          -- a slot that is not pinned has no flag to clear
          rw [Slot.pinned, Bool.not_eq_true, Bool.or_eq_false_iff] at hpin
          rw [hxn, hn, map_some, if_pos (Nat.lt_succ_self j)]
          cases s with
          | mk blk dirty wb =>
            obtain ⟨rfl, rfl⟩ : dirty = false ∧ wb = false := hpin
            rfl
        · simp only [hslots, hlt j hj]

/-- A synchronous checkpoint. -/
theorem Inv.flushAll (h : v.Inv) (hidle : v.request = none) (hfl : v.inflight = false)
    (record : D) : (v.flushAll record).Inv := by
  have hnone : v.state.todo = [] := h.landed hfl
  obtain ⟨hs, hg, hp, hslots⟩ := clean_fold v.cache.slots.length h.sound
  -- over all slots the fold is a map
  have hmap : (v.flushAll record).cache.slots =
      v.cache.slots.map fun s => { s with dirty := false, wb := false } := by
    refine List.ext_getElem? fun j => (hslots j).trans ?_
    rw [List.getElem?_map]
    cases hj : v.cache.slots[j]? with
    | none => rfl
    | some => rw [map_some, if_pos (List.getElem?_eq_some_iff.mp hj).1, map_some]
  obtain ⟨-, hcached⟩ := cached_map h.sound.distinct (x := (v.flushAll record).cache)
    (g := fun e => { e with dirty := false, wb := false }) hmap (fun _ => rfl) fun _ => rfl
  have hoff : (v.flushAll record).cache.probe = .off := hp.trans (h.idle hidle)
  have hflush := h.coherent.flush hnone fun k d =>
    mem_snapshot h.sound (p := Slot.pinned) (q := fun e => e.dirty || e.wb) fun _ => rfl
  -- neither pack is a block of a file
  have hrec : ¬ v.real (if !v.activePack then v.packs.2 else v.packs.1) := by
    rintro ⟨h1, h2⟩
    split at h1
    · next hact => exact h2 (if_pos hact)
    · exact h1 rfl
  have haround := hflush.around hrec record
  refine ⟨hs, ?_, fun _ => hnone, h.record, fun _ => hoff, fun hne => absurd hoff hne⟩
  simp only [state, hcached]
  rw [blkGen_congr (c := v.cache) (x := (v.flushAll record).cache) hg]
  exact haround

/-! ### Runs -/

theorem inRequest_eq_some {who : Nat} {o : Option (Volume D)} (h : v.inRequest who o = some v') :
    v.request = some who ∧ o = some v' := by
  unfold inRequest at h
  split at h
  · next hr => exact ⟨hr, h⟩
  · contradiction

theorem locked_eq_some {o : Option (Volume D)} (h : v.locked o = some v') :
    v.request = none ∧ o = some v' := by
  unfold locked at h
  split at h
  · next hr => exact ⟨hr, h⟩
  · contradiction

variable [Zero D]

/-- Every step keeps the invariant. -/
theorem Inv.step (h : v.Inv) {act : CacheAction D} (hok : v.ok act) (hs : v.step act = some v') :
    v'.Inv := by
  cases act with
  | start who noio =>
    obtain ⟨-, hs⟩ := locked_eq_some hs
    obtain ⟨-, rfl⟩ := guard_eq_some hs
    exact h.start who noio
  | read who b =>
    obtain ⟨-, hs⟩ := inRequest_eq_some hs
    obtain ⟨⟨d, w⟩, hr, rfl⟩ := map_eq_some_iff.mp hs
    obtain ⟨⟨o, w⟩, hl, he⟩ := map_eq_some_iff.mp hr
    cases he
    exact (h.load hl fun hf hp => hok b (if_pos ⟨hf, hp⟩)).1
  | write who b =>
    obtain ⟨-, hs⟩ := inRequest_eq_some hs
    exact h.write hs fun hf hp => hok b (if_pos ⟨hf, hp⟩)
  | getMut who b =>
    obtain ⟨-, hs⟩ := inRequest_eq_some hs
    exact h.getMut hs fun hf hp => hok b (if_pos ⟨hf, hp⟩)
  | noteMiss who b n =>
    obtain ⟨-, hs⟩ := inRequest_eq_some hs
    cases hs
    exact h.noteMiss b n
  | finish who =>
    obtain ⟨-, hs⟩ := inRequest_eq_some hs
    unfold probeStop at hs
    split at hs
    · next heq =>
      cases hs
      split at heq
      · cases heq
      · cases heq
        exact h.finish
    · next heq =>
      cases hs
      split at heq
      · next hp =>
        cases heq
        exact h.undone hp who _
      · cases heq
  | fetch who k =>
    cases hs
    exact h.fetch who k
  | install =>
    obtain ⟨hidle, hs⟩ := locked_eq_some hs
    obtain ⟨f, hf, hs⟩ := Option.bind_eq_some_iff.mp hs
    -- a fetched block goes in only if it is still missing and of the generation it was read at
    refine h.installFetched (List.mem_of_getElem? hf) (h.idle hidle) hs fun hd hnone hgen => ?_
    refine hok f.blk ?_
    simp only [allocates, hf, Option.bind_some]
    exact if_pos ⟨hd, hnone, hgen⟩
  | passDone who =>
    cases hs
    exact h.passDone who
  | phase1 record =>
    obtain ⟨hidle, hs⟩ := locked_eq_some hs
    obtain ⟨hcp, rfl⟩ := guard_eq_some hs
    exact h.phase1 hidle (Option.isNone_iff_eq_none.mp hcp) record
  | writeBack =>
    simp only [Volume.step] at hs
    split at hs
    · next hcp =>
      cases hs
      exact h.writeBack hcp
    · contradiction
  | commit =>
    simp only [Volume.step] at hs
    split at hs
    · next hcp =>
      obtain ⟨-, rfl⟩ := guard_eq_some hs
      exact h.commit hcp
    · contradiction
  | phase3 =>
    obtain ⟨hidle, hs⟩ := locked_eq_some hs
    split at hs
    · next k _ =>
      obtain ⟨hfl, hs⟩ := Option.ite_none_left_eq_some.mp hs
      cases hs
      exact h.phase3 hidle (Bool.not_eq_true _ ▸ hfl) k.runs
    · contradiction
  | flushAll record =>
    obtain ⟨hidle, hs⟩ := locked_eq_some hs
    split at hs
    · contradiction
    · next hfl =>
      cases hs
      exact h.flushAll hidle (Bool.not_eq_true _ ▸ hfl) record

omit [Zero D] in
/-- A volume just mounted. -/
theorem Init.inv (h : v.Init) : v.Inv := by
  obtain ⟨⟨cap, devBlocks, batch, hc⟩, hfl, hcp, hr, hpass, hst⟩ := h
  -- nothing is cached, fetched or on its way
  have hslots : v.cache.slots = [] := by rw [hc]; rfl
  have hoff : v.cache.probe = .off := by rw [hc]; rfl
  have hnone : ∀ b, v.cache.cached b = none := fun b => by
    simp [cached, find, hslots]
  have htodo : v.todo = [] := by simp [todo, hcp]
  refine ⟨⟨?_, ?_, ?_, ?_, ?_⟩, ⟨fun k _ => ?_, fun r hr => ?_, ?_⟩, fun _ => htodo, ?_, fun _ => hoff,
    fun hp => absurd hoff hp⟩
  · intro i j s t b hi
    rw [hslots] at hi
    contradiction
  · rw [hc]
    exact List.nodup_nil
  · simp [hc, BlockCache.new]
  · intro i s hi
    rw [hslots] at hi
    contradiction
  · rw [hc]
    exact Nat.one_pos
  · simp only [state, hnone, htodo, WriteBack.landed_nil, Holds, hst]
  · simp only [state, htodo] at hr
    contradiction
  · rintro f ⟨who, f', hf', -⟩
    rw [hpass] at hf'
    contradiction
  · intro k hk
    rw [hcp] at hk
    contradiction

/-- **The cache is coherent.** In every run, what the cache has of a block is what was last stored
to it, the device has it if the cache does not, and a read returns it; the bytes a doomed request
reads are not used. -/
theorem reads_return_stored (h : Reachable Init ok step v) (hreal : v.real b) :
    (∀ e, v.cache.cached b = some e → e.data = v.stored b) ∧
      (v.cache.cached b = none → v.dev b = v.stored b) ∧
      ∀ who a d v', v.ok (.read who b a) → v.read b a = some (d, v') → v'.cache.probe ≠ .missed →
        d = v.stored b := by
  have hinv : v.Inv := h.invariant (P := Inv) (fun _ => Init.inv) fun _ _ _ hI hok hs => hI.step hok hs
  refine ⟨fun e he => hinv.coherent.data_of_cached hreal he,
    fun hn => hinv.coherent.dev_of_absent hreal hn, fun who a d v' hok hr hp => ?_⟩
  -- a read is a load, and then the data of the slot it names
  obtain ⟨⟨o, w⟩, hl, he⟩ := map_eq_some_iff.mp hr
  cases he
  obtain ⟨hw, hsame, hslot⟩ := hinv.load hl fun hf hp => hok b (if_pos ⟨hf, hp⟩)
  cases o with
  -- a probe that missed has no data to return
  | none => exact absurd (load_eq_none hl) hp
  | some i =>
    obtain ⟨-, s, hs, hb⟩ := hslot i rfl
    have hdata := hw.coherent.data_of_cached (k := b) (by rw [hsame]; exact hreal)
      (hw.sound.distinct.cached_of_slot hs hb)
    change s.data = w.stored b at hdata
    simp only [map_some, Option.getD_some, Volume.data, hs, hdata]
    rw [hsame]

/-- Memory for the undo log, and maybe for slots. -/
def memory (slots : Bool) : Alloc := ⟨slots, slots, true, true⟩

/-- A volume of zeros, just mounted, with the commit blocks 1 and 2. -/
def blank : Volume Nat where
  cache := .new 1024 8192 true
  dev := fun _ => 0
  inflight := false
  cp := none
  packs := (1, 2)
  activePack := false
  request := none
  pass := fun _ => []
  stored := fun _ => 0
  before := fun _ => 0

theorem blank_init : blank.Init :=
  ⟨⟨1024, 8192, true, rfl⟩, rfl, rfl, rfl, fun _ => rfl, rfl⟩

theorem ok_of_allocates_none {act : CacheAction D} (h : v.allocates act = none) : v.ok act := by
  intro b hb
  rw [h] at hb
  contradiction

/-- Block 5 is stored to; a request misses the blocks 4 and 6, and its pass reads 5 too. -/
def gapRead : List (CacheAction Nat) :=
  [.finish 0, .start 1 true, .read 1 4 (memory true), .read 1 6 (memory true), .finish 1, .fetch 1 1]

/-- A checkpoint of one block. -/
def checkpointOne : List (CacheAction Nat) := [.phase1 0, .writeBack, .commit, .phase3]

/-- A pass runs across a checkpoint, and block 5 is read. -/
theorem reads_return_stored_across_checkpoint :
    ∃ v : Volume Nat, Reachable Init ok step v ∧ v.pass 1 ≠ [] ∧
      (v.read 5 (memory true)).isSome = true ∧
      ∀ d v', v.read 5 (memory true) = some (d, v') → v'.cache.probe ≠ .missed → d = 1 := by
  have hstart : Reachable Init ok step { blank with request := some 0 } :=
    (Reachable.start blank_init).next (a := .start 0 false) (fun _ => nofun) rfl
  have hrun : ((({ blank with request := some 0 } : Volume Nat).step (.write 0 5 1 (memory true))).bind fun v =>
      replay (fun v act => v.allocates act = none) step v (gapRead ++ checkpointOne)).any
        (fun v => !(v.pass 1).isEmpty && (v.read 5 (memory true)).isSome &&
          decide (v.allocates (.read 0 5 (memory true)) = none ∧ v.packs = (1, 2) ∧
            v.stored 5 = 1)) = true := by decide +kernel
  obtain ⟨v, hv, hobs⟩ := any_eq_true _ _ |>.mp hrun
  obtain ⟨v2, hv2, hv⟩ := Option.bind_eq_some_iff.mp hv
  have h2 : Reachable Init ok step v2 := by
    exact hstart.next (fun b _ => ⟨fun _ _ _ _ => nofun, fun _ => nofun⟩) hv2
  have h := h2.replay_of_imp (fun _ _ => ok_of_allocates_none) hv
  rw [Bool.and_eq_true, Bool.and_eq_true, Bool.not_eq_true', List.isEmpty_eq_false_iff,
    decide_eq_true_eq] at hobs
  obtain ⟨⟨hp, hr⟩, ha, hpacks, hst⟩ := hobs
  refine ⟨v, h, hp, hr, fun d v' hd hm => ?_⟩
  have hreal : v.real 5 := by
    rw [real, hpacks]
    decide
  rw [(reads_return_stored h hreal).2.2 0 _ d v' (ok_of_allocates_none ha) hd hm, hst]

/-- A fetch pass reads block 5 from the device while the cache has newer contents of it. They are
written back, the block is evicted, and the pass installs what it read: a read returns 0 after 1
was stored. -/
theorem stale_block_read :
    ∃ v : Volume Nat, Reachable Init (fun _ _ => True) step v ∧ v.real 5 ∧ v.stored 5 = 1 ∧
      (v.read 5 (memory false)).map Prod.fst = some 0 := by
  have hrun : ((replay (fun _ _ => True) step blank
      ([.start 0 false, .write 0 5 1 (memory true)] ++ gapRead ++ checkpointOne ++
        -- 256 blocks are read, and there is no memory for more slots.
        [.start 0 false] ++ (List.range' 1000 256).map (.read 0 · (memory false)) ++
        [.finish 0, .install 1 1 (memory false)])).any fun v =>
      v.packs = (1, 2) ∧ v.stored 5 = 1 ∧
        (v.read 5 (memory false)).map Prod.fst = some 0) = true := by decide +kernel
  obtain ⟨v, hv, hobs⟩ := any_eq_true _ _ |>.mp hrun
  obtain ⟨hpacks, hread⟩ := of_decide_eq_true hobs
  refine ⟨v, (Reachable.start blank_init).replay hv, ?_, hread⟩
  rw [real, hpacks]
  decide

end Volume

end Leandros.F2fs
