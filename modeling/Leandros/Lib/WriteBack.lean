import Mathlib

/-!
# Leandros.Lib.WriteBack

**A write-back cache over a device that others use at the same time.** Keys have contents on
a device and, some of them, newer contents in a cache. Writes to the device may be on the way
(`todo`), and so may reads of it (`fetches`), which are to enter the cache later if the key's
generation has not moved since they were planned. What the cache is to return is `stored`.

* `Coherent` — cached contents are what was stored; what is not cached is on the device, once
  the writes on the way have landed; a key with a write on the way stays cached; a read whose
  generation still stands has what was stored.
* `Undoable` — the log leads from the cache as it is back to contents `before`.

One lemma for each thing that can happen; keys that the device's owner also writes around the
cache are left out by `real`.
-/

namespace Leandros.WriteBack

open Function (update update_apply update_comm update_idem update_of_ne update_self)
open Prod (fst)
open List (map_cons mem_cons mem_map mem_map_of_mem nodup_cons)

/-- A cached key. -/
@[ext]
structure Entry (D : Type*) where
  data : D
  dirty : Bool
  /-- A write of it is on the way. -/
  wb : Bool

/-- A read of the device on its way to the cache. -/
structure Fetch (K D : Type*) where
  key : K
  gen : Nat
  data : Option D

/-- A cache, its device, and what is on the way between them. -/
structure State (K D : Type*) where
  cached : K → Option (Entry D)
  dev : K → D
  todo : List (K × D)
  gen : K → Nat
  fetches : Set (Fetch K D)
  stored : K → D

variable {K D : Type*}

/-- The state of one key is right for contents `d`. -/
def Holds (at_ : K → D) (k : K) (d : D) : Option (Entry D) → Prop
  | none => at_ k = d
  | some e => e.data = d ∧ (e.dirty = false → at_ k = d)

variable {at_ at_' : K → D} {k : K} {d : D} {x : Option (Entry D)}

theorem Holds.congr (h : Holds at_ k d x) (hk : at_' k = at_ k) : Holds at_' k d x := by
  unfold Holds at *
  rwa [hk]

theorem holds_of_landed (hk : at_ k = d)
    (hx : ∀ e, x = some e → e.data = d) : Holds at_ k d x := by
  cases x with
  | none => exact hk
  | some e => exact ⟨hx e rfl, fun _ => hk⟩

variable [DecidableEq K]

/-- The device after some writes. -/
def landed (dev : K → D) (todo : List (K × D)) : K → D :=
  todo.foldl (fun dev r => update dev r.1 r.2) dev

@[simp] theorem landed_nil (dev : K → D) : landed dev [] = dev := rfl

theorem landed_cons (dev : K → D) (r : K × D) (todo : List (K × D)) :
    landed dev (r :: todo) = landed (update dev r.1 r.2) todo := rfl

variable {dev : K → D} {todo : List (K × D)}

theorem landed_of_not_mem (h : k ∉ todo.map fst) : landed dev todo k = dev k := by
  induction todo generalizing dev with
  | nil => rfl
  | cons r todo ih =>
    rw [map_cons, mem_cons, not_or] at h
    rw [landed_cons, ih h.2, update_of_ne h.1]

/-- Writes that all agree on a key. -/
theorem landed_of_mem (hall : ∀ r ∈ todo, r.1 = k → r.2 = d)
    (h : k ∈ todo.map fst ∨ dev k = d) : landed dev todo k = d := by
  induction todo generalizing dev with
  | nil =>
    rcases h with h | h
    · contradiction
    · exact h
  | cons r todo ih =>
    rw [landed_cons]
    refine ih (fun q hq => hall q (.tail r hq)) ?_
    by_cases hr : k = r.1
    · refine .inr ?_
      rw [hr, update_self]
      exact hall r (.head _) hr.symm
    · rw [update_of_ne hr]
      rcases h with h | h
      · exact .inl ((mem_cons.mp h).resolve_left hr)
      · exact .inr h

theorem landed_update_of_ne {j : K} (h : j ≠ k) (d : D) :
    landed (update dev k d) todo j = landed dev todo j := by
  induction todo generalizing dev with
  | nil => exact update_of_ne h _ _
  | cons r todo ih =>
    rw [landed_cons, landed_cons]
    by_cases hr : r.1 = k
    · rw [hr, update_idem]
    · rw [update_comm (Ne.symm hr), ih]

/-- The cache returns what was stored. -/
structure Coherent (real : K → Prop) (s : State K D) : Prop where
  holds : ∀ k, real k → Holds (landed s.dev s.todo) k (s.stored k) (s.cached k)
  pinned : ∀ r ∈ s.todo, ∃ e, s.cached r.1 = some e ∧ e.wb = true
  fetched : ∀ f ∈ s.fetches, real f.key → s.gen f.key = f.gen → s.cached f.key = none →
    ∀ d, f.data = some d → d = s.stored f.key

/-- No read on the way holds other contents of `k` than `d` under its present generation. -/
def State.Fresh (s : State K D) (k : K) (d : D) : Prop :=
  ∀ f ∈ s.fetches, f.key = k → s.gen k = f.gen → ∀ d', f.data = some d' → d' = d

/-- Generations move without meeting one that a read on the way has, and `k` gets a new one. -/
def State.Moves (s : State K D) (k : K) (gen : K → Nat) : Prop :=
  ∀ f ∈ s.fetches, gen f.key = f.gen → s.gen f.key = f.gen ∧ f.key ≠ k

namespace Coherent

variable {real : K → Prop} {s : State K D}

variable {e : Entry D}

variable (h : Coherent real s)
include h

/-- What is not cached has no write on the way. -/
theorem not_mem_todo (hk : ∀ e, s.cached k = some e → e.wb = false) : k ∉ s.todo.map fst := by
  intro hm
  obtain ⟨r, hr, rfl⟩ := mem_map.mp hm
  obtain ⟨e, he, hwb⟩ := h.pinned r hr
  rw [hk e he] at hwb
  contradiction

theorem dev_of_absent (hreal : real k) (hk : s.cached k = none) : s.dev k = s.stored k := by
  have hm : k ∉ s.todo.map fst := h.not_mem_todo fun e he => by
    rw [hk] at he
    contradiction
  have hh := h.holds k hreal
  rw [hk] at hh
  exact (landed_of_not_mem hm).symm.trans hh

theorem data_of_cached (hreal : real k) (hk : s.cached k = some e) : e.data = s.stored k := by
  have hh := h.holds k hreal
  rw [hk] at hh
  exact hh.1

/-- One key changes: its entry, its contents and what the device has of it. -/
theorem put {dev stored : K → D} {gen : K → Nat}
    (hdev : ∀ j, j ≠ k → landed dev s.todo j = landed s.dev s.todo j)
    (hstored : ∀ j, j ≠ k → stored j = s.stored j)
    (hx : real k → Holds (landed dev s.todo) k (stored k) x)
    (hpin : k ∈ s.todo.map fst → ∃ e, x = some e ∧ e.wb = true)
    (hgen : ∀ f ∈ s.fetches, gen f.key = f.gen → s.gen f.key = f.gen ∧
      (f.key = k → x = none → real k → ∀ d, f.data = some d → d = stored k)) :
    Coherent real { s with dev, cached := update s.cached k x, stored, gen } := by
  refine ⟨fun j hj => ?_, fun r hr => ?_, fun f hfm hreal hg hcached d hfd => ?_⟩
  · -- the key that is put, or another one
    dsimp only
    by_cases hjk : j = k
    · subst hjk
      rw [update_self]
      exact hx hj
    · rw [update_of_ne hjk, hstored j hjk]
      exact (h.holds j hj).congr (hdev j hjk)
  · dsimp only
    by_cases hrk : r.1 = k
    · rw [hrk, update_self]
      exact hpin (hrk ▸ mem_map_of_mem hr)
    · rw [update_of_ne hrk]
      exact h.pinned r hr
  · obtain ⟨hg', hk⟩ := hgen f hfm hg
    dsimp only at hcached ⊢
    by_cases hfk : f.key = k
    · rw [hfk, update_self] at hcached
      rw [hfk]
      exact hk hfk hcached (hfk ▸ hreal) d hfd
    · rw [update_of_ne hfk] at hcached
      rw [hstored _ hfk]
      exact h.fetched f hfm hreal hg' hcached d hfd

/-- A clean key leaves the cache. -/
theorem evict (hk : s.cached k = some e)
    (hd : e.dirty = false) (hw : e.wb = false) (hf : s.Fresh k e.data) :
    Coherent real { s with cached := update s.cached k none } := by
  have hm : k ∉ s.todo.map fst := h.not_mem_todo fun e' he' => by
    rw [hk] at he'
    exact Option.some.inj he' ▸ hw
  refine h.put (fun _ _ => rfl) (fun _ _ => rfl) (fun hreal => ?_) (absurd · hm)
    fun f hfm hg => ⟨hg, fun hfk _ hreal d hfd => ?_⟩
  · have hh := h.holds k hreal
    rw [hk] at hh
    exact hh.2 hd
  · rw [hf f hfm hfk (hfk ▸ hg) d hfd]
    exact h.data_of_cached hreal hk

/-- A key without a write on the way is written to the device in place. -/
theorem writeThrough (hk : s.cached k = some e) (hm : k ∉ s.todo.map fst) : Coherent real
      { s with
        dev := update s.dev k e.data
        cached := update s.cached k (some { e with dirty := false, wb := false }) } := by
  refine h.put (fun _ hj => landed_update_of_ne hj _) (fun _ _ => rfl) (fun hreal => ?_) (absurd · hm)
    fun _ _ hg => ⟨hg, nofun⟩
  have hdata := h.data_of_cached hreal hk
  refine ⟨hdata, fun _ => ?_⟩
  rw [landed_of_not_mem hm, update_self]
  exact hdata

/-- A key enters the cache with the contents that it has on the device. -/
theorem fill {gen : K → Nat} (hk : s.cached k = none)
    (hd : real k → d = s.stored k) (hgen : s.Moves k gen) : Coherent real
      { s with cached := update s.cached k (some ⟨d, false, false⟩), gen } := by
  refine h.put (fun _ _ => rfl) (fun _ _ => rfl) (fun hreal => ?_) (absurd · (h.not_mem_todo ?_))
    fun f hfm hg => ⟨(hgen f hfm hg).1, nofun⟩
  · have hh := h.holds k hreal
    rw [hk] at hh
    exact ⟨hd hreal, fun _ => hh⟩
  · rw [hk]
    nofun

/-- New contents for a cached key. -/
theorem store (hk : s.cached k = some e) (d : D) : Coherent real
      { s with
        cached := update s.cached k (some { e with data := d, dirty := true })
        stored := update s.stored k d } := by
  refine h.put (fun _ _ => rfl) (fun _ hj => update_of_ne hj _ _) (fun _ => ⟨?_, nofun⟩) (fun hm => ?_)
    fun _ _ hg => ⟨hg, nofun⟩
  · rw [update_self]
  obtain ⟨r, hr, rfl⟩ := mem_map.mp hm
  obtain ⟨e', he', hwb⟩ := h.pinned r hr
  rw [hk] at he'
  exact ⟨_, rfl, Option.some.inj he' ▸ hwb⟩

/-- Contents for a key that is not cached, without a look at the device. -/
theorem create {gen : K → Nat} (hk : s.cached k = none)
    (hgen : s.Moves k gen) (d : D) : Coherent real
      { s with
        cached := update s.cached k (some ⟨d, true, false⟩)
        stored := update s.stored k d
        gen } := by
  refine h.put (fun _ _ => rfl) (fun _ hj => update_of_ne hj _ _) (fun _ => ⟨?_, nofun⟩)
    (absurd · (h.not_mem_todo ?_)) fun f hfm hg => ⟨(hgen f hfm hg).1, nofun⟩
  · rw [update_self]
  · rw [hk]
    nofun

/-- Once copies of all dirty keys have landed, the device has what was stored. -/
theorem landed_copies (hnone : s.todo = []) {p : Entry D → Bool}
    (hp : ∀ e, p e = false → e.dirty = false) {writes : List (K × D)}
    (hw : ∀ k d, (k, d) ∈ writes ↔ ∃ e, s.cached k = some e ∧ p e = true ∧ e.data = d)
    (hreal : real k) : landed s.dev writes k = s.stored k := by
  have hh := h.holds k hreal
  rw [hnone] at hh
  refine landed_of_mem ?_ ?_
  · rintro r hr rfl
    obtain ⟨e, he, -, hdata⟩ := (hw r.1 r.2).mp hr
    rw [← hdata]
    exact h.data_of_cached hreal he
  · cases hc : s.cached k with
    | none =>
      rw [hc] at hh
      exact .inr hh
    | some e =>
      rw [hc] at hh
      cases he : p e with
      | true => exact .inl (mem_map.mpr ⟨(k, e.data), (hw k e.data).mpr ⟨e, hc, he, rfl⟩, rfl⟩)
      | false => exact .inr (hh.2 (hp e he))

/-- The dirty keys are copied, and their writes are on the way. -/
theorem mark (hnone : s.todo = []) {todo : List (K × D)}
    (htodo : ∀ k d, (k, d) ∈ todo ↔ ∃ e, s.cached k = some e ∧ e.dirty = true ∧ e.data = d) :
    Coherent real
      { s with
        cached := fun k => (s.cached k).map fun e =>
          if e.dirty then { e with dirty := false, wb := true } else e
        todo } := by
  refine ⟨fun j hj => ?_, fun r hr => ?_, fun f hfm hreal hg hcached d' hfd => ?_⟩
  · refine holds_of_landed (h.landed_copies hnone (fun _ => id) htodo hj) fun e he => ?_
    obtain ⟨e, hc, rfl⟩ := Option.map_eq_some_iff.mp he
    rw [← h.data_of_cached hj hc]
    split <;> rfl
  · obtain ⟨e, he, hd, -⟩ := (htodo r.1 r.2).mp hr
    refine ⟨{ e with dirty := false, wb := true }, ?_, rfl⟩
    simp [he, hd]
  · refine h.fetched f hfm hreal hg ?_ d' hfd
    simpa using hcached

/-- A write on the way lands. -/
theorem land {r : K × D} {todo : List (K × D)} (htodo : s.todo = r :: todo) :
    Coherent real { s with dev := update s.dev r.1 r.2, todo } := by
  refine ⟨fun j hj => ?_, fun q hq => h.pinned q (htodo ▸ .tail r hq), h.fetched⟩
  have hh := h.holds j hj
  rw [htodo] at hh
  exact hh

/-- Only what was stored to real keys matters. -/
theorem agree {stored : K → D} (hs : ∀ k, real k → s.stored k = stored k) :
    Coherent real { s with stored } := by
  refine ⟨fun j hj => ?_, h.pinned, fun f hfm hreal hg hcached d hfd => ?_⟩
  · have hh := h.holds j hj
    rw [hs j hj] at hh
    exact hh
  · dsimp only
    rw [← hs f.key hreal]
    exact h.fetched f hfm hreal hg hcached d hfd

/-- The device's owner writes around the cache. -/
theorem around (hk : ¬ real k) (d : D) : Coherent real { s with dev := update s.dev k d } := by
  refine ⟨fun j hj => (h.holds j hj).congr (landed_update_of_ne ?_ d), h.pinned, h.fetched⟩
  rintro rfl
  exact hk hj

/-- Keys whose writes have all landed are unpinned. -/
theorem unpin (hnone : s.todo = []) {cached : K → Option (Entry D)}
    (hc : ∀ k, cached k = s.cached k ∨
      ∃ e, s.cached k = some e ∧ cached k = some { e with wb := false }) :
    Coherent real { s with cached } := by
  refine ⟨fun j hj => ?_, fun r hr => ?_, fun f hfm hreal hg hcached d' hfd => ?_⟩
  · have hh := h.holds j hj
    dsimp only
    rcases hc j with hsame | ⟨e, he, hnew⟩
    · rw [hsame]
      exact hh
    · rw [he] at hh
      rw [hnew]
      exact hh
  · rw [hnone] at hr
    contradiction
  · refine h.fetched f hfm hreal hg ?_ d' hfd
    rcases hc f.key with hsame | ⟨e, he, hnew⟩
    · exact hsame.symm.trans hcached
    · dsimp only at hcached
      rw [hnew] at hcached
      contradiction

/-- Everything that is not clean is written to the device at once. -/
theorem flush (hnone : s.todo = []) {writes : List (K × D)}
    (hw : ∀ k d, (k, d) ∈ writes ↔ ∃ e, s.cached k = some e ∧ (e.dirty || e.wb) = true ∧ e.data = d) :
    Coherent real
      { s with
        cached := fun k => (s.cached k).map fun e => { e with dirty := false, wb := false }
        dev := landed s.dev writes } := by
  refine ⟨fun j hj => ?_, fun r hr => ?_, fun f hfm hreal hg hcached d' hfd => ?_⟩
  · have hdev := h.landed_copies hnone (fun e he => (Bool.or_eq_false_iff.mp he).1) hw hj
    refine holds_of_landed (by rwa [hnone]) fun e he => ?_
    obtain ⟨e, hc, rfl⟩ := Option.map_eq_some_iff.mp he
    rw [← h.data_of_cached hj hc]
  · rw [hnone] at hr
    contradiction
  · refine h.fetched f hfm hreal hg ?_ d' hfd
    simpa using hcached

/-- Reads are planned, done, or given up. -/
theorem fetch {fetches : Set (Fetch K D)}
    (hf : ∀ f ∈ fetches, f.data = none ∨ f ∈ s.fetches ∨ f.data = some (s.dev f.key)) :
    Coherent real { s with fetches } := by
  refine ⟨h.holds, h.pinned, fun f hfm hreal hg hcached d' hfd => ?_⟩
  rcases hf f hfm with hnone | hold | hread
  · rw [hnone] at hfd
    contradiction
  · exact h.fetched f hold hreal hg hcached d' hfd
  · rw [hread] at hfd
    rw [← Option.some.inj hfd]
    exact h.dev_of_absent hreal hcached

end Coherent

/-! ### Undoing -/

/-- The log leads from the cache as it is back to `before`: it has, for each key that was
changed since, the entry the key had (`none`: it was not cached). -/
structure Undoable (real : K → Prop) (s : State K D) (before : K → D)
    (log : List (K × Option (Entry D))) : Prop where
  nodup : (log.map fst).Nodup
  entry : ∀ u ∈ log, ∃ e, s.cached u.1 = some e ∧ e.dirty = true ∧ e.wb = u.2.elim false Entry.wb ∧
    (real u.1 → Holds (landed s.dev s.todo) u.1 (before u.1) u.2) ∧
    (u.2 = none → ∀ f ∈ s.fetches, f.key = u.1 → s.gen u.1 ≠ f.gen)
  rest : ∀ k, real k → k ∉ log.map fst → s.stored k = before k

namespace Undoable

variable {real : K → Prop} {s : State K D} {before : K → D} {log : List (K × Option (Entry D))}

/-- One record is undone. -/
theorem undo {u : K × Option (Entry D)} (h : Undoable real s before (u :: log))
    (hc : Coherent real s) :
    let s' := { s with
      cached := update s.cached u.1 u.2
      stored := update s.stored u.1 (before u.1) }
    Coherent real s' ∧ Undoable real s' before log := by
  obtain ⟨e, he, -, hwb, hholds, hgen⟩ := h.entry u (.head _)
  have hnot : u.1 ∉ log.map fst := (nodup_cons.mp h.nodup).1
  refine ⟨hc.put (fun _ _ => rfl) (fun _ hj => update_of_ne hj _ _) (fun hreal => ?_) (fun hm => ?_)
      -- a fetch of the key is of an older generation, so it will not be installed
      fun f hfm hg => ⟨hg, fun hfu hnone => absurd (hfu ▸ hg) (hgen hnone f hfm hfu)⟩,
    (nodup_cons.mp h.nodup).2, fun w hw => ?_, fun k hk hkl => ?_⟩
  · rw [update_self]
    exact hholds hreal
  · -- the write-back bit is the one it was, so the copy on its way is still pinned
    obtain ⟨r, hr, hru⟩ := mem_map.mp hm
    obtain ⟨e', he', hwb'⟩ := hc.pinned r hr
    rw [hru, he] at he'
    rw [← Option.some.inj he', hwb] at hwb'
    cases hu : u.2 with
    | none =>
      rw [hu] at hwb'
      contradiction
    | some e₀ =>
      rw [hu] at hwb'
      exact ⟨e₀, rfl, hwb'⟩
  · have hne : w.1 ≠ u.1 := by
      intro hwu
      exact hnot (hwu ▸ mem_map_of_mem hw)
    dsimp only
    rw [update_of_ne hne]
    exact h.entry w (.tail u hw)
  · dsimp only
    rw [update_apply]
    split
    · next hku => rw [hku]
    · next hku =>
      refine h.rest k hk fun hm => ?_
      rcases mem_cons.mp hm with hm | hm
      · exact hku hm
      · exact hkl hm

variable {e : Entry D}

variable (h : Undoable real s before log)
include h

/-- A key that was changed before is changed again. -/
theorem store (hk : s.cached k = some e) (hm : k ∈ log.map fst) (d : D) : Undoable real
      { s with
        cached := update s.cached k (some { e with data := d, dirty := true })
        stored := update s.stored k d } before log := by
  refine ⟨h.nodup, fun u hu => ?_, fun j hj hjl => ?_⟩
  · obtain ⟨e', he', hd, hwb, hrest⟩ := h.entry u hu
    dsimp only
    rw [update_apply]
    split
    · next huk =>
      rw [huk, hk] at he'
      exact ⟨_, rfl, rfl, Option.some.inj he' ▸ hwb, hrest⟩
    · exact ⟨e', he', hd, hwb, hrest⟩
  · dsimp only
    rw [update_of_ne]
    · exact h.rest j hj hjl
    · rintro rfl
      exact hjl hm

/-- A key is changed for the first time. -/
theorem first (hc : Coherent real s) (hm : k ∉ log.map fst) {gen : K → Nat}
    (hk : s.cached k = x) (hd : e.dirty = true) (hwb : e.wb = x.elim false Entry.wb)
    (hgen : ∀ f ∈ s.fetches, gen f.key = f.gen → s.gen f.key = f.gen ∧ (x = none → f.key ≠ k)) :
    Undoable real
      { s with cached := update s.cached k (some e), stored := update s.stored k d, gen } before
      ((k, x) :: log) := by
  refine ⟨nodup_cons.mpr ⟨hm, h.nodup⟩, fun u hu => ?_, fun j hj hjl => ?_⟩
  · -- the new record keeps what the cache held, which was the state before
    rcases mem_cons.mp hu with rfl | hu'
    · refine ⟨e, update_self _ _ _, hd, hwb, fun hreal => ?_, fun hx f hf hfk hg => ?_⟩
      · have hh := hc.holds k hreal
        rw [hk, h.rest k hreal hm] at hh
        exact hh
      · exact (hgen f hf (hfk ▸ hg)).2 hx hfk
    · obtain ⟨e', he', hd, hwb, hholds, hfetch⟩ := h.entry u hu'
      refine ⟨e', ?_, hd, hwb, hholds, fun hnone f hf hfu hg => ?_⟩
      · dsimp only
        rw [update_of_ne, he']
        intro huk
        exact hm (huk ▸ mem_map_of_mem hu')
      · exact hfetch hnone f hf hfu (hfu ▸ (hgen f hf (hfu ▸ hg)).1)
  · rw [map_cons, mem_cons, not_or] at hjl
    dsimp only
    rw [update_of_ne hjl.1]
    exact h.rest j hj hjl.2

/-- It was cached. -/
theorem store_new (hc : Coherent real s)
    (hk : s.cached k = some e) (hm : k ∉ log.map fst) (d : D) : Undoable real
      { s with
        cached := update s.cached k (some { e with data := d, dirty := true })
        stored := update s.stored k d } before ((k, some e) :: log) :=
  h.first hc hm hk rfl rfl fun _ _ hg => ⟨hg, nofun⟩

/-- It was not. -/
theorem create (hc : Coherent real s) {gen : K → Nat}
    (hk : s.cached k = none) (hgen : s.Moves k gen) (d : D) : Undoable real
      { s with
        cached := update s.cached k (some ⟨d, true, false⟩)
        stored := update s.stored k d
        gen } before ((k, none) :: log) := by
  refine h.first hc (fun hm => ?_) hk rfl rfl fun f hf hg => (hgen f hf hg).imp_right fun hne _ => hne
  obtain ⟨u, hu, rfl⟩ := mem_map.mp hm
  obtain ⟨e, he, -⟩ := h.entry u hu
  rw [hk] at he
  contradiction

/-- A clean key leaves the cache. -/
theorem evict (hk : s.cached k = some e) (hd : e.dirty = false) :
    Undoable real { s with cached := update s.cached k none } before log := by
  refine ⟨h.nodup, fun u hu => ?_, h.rest⟩
  obtain ⟨e', he', hd', hrest⟩ := h.entry u hu
  refine ⟨e', ?_, hd', hrest⟩
  dsimp only
  rw [update_of_ne, he']
  intro huk
  rw [huk, hk] at he'
  rw [← Option.some.inj he', hd] at hd'
  contradiction

/-- A write on the way lands. -/
theorem land {r : K × D} {todo : List (K × D)} (htodo : s.todo = r :: todo) :
    Undoable real { s with dev := update s.dev r.1 r.2, todo } before log := by
  refine ⟨h.nodup, fun u hu => ?_, h.rest⟩
  have he := h.entry u hu
  rw [htodo] at he
  exact he

/-- The device's owner writes around the cache. -/
theorem around (hk : ¬ real k) (d : D) :
    Undoable real { s with dev := update s.dev k d } before log := by
  refine ⟨h.nodup, fun u hu => ?_, h.rest⟩
  obtain ⟨e, he, hd, hwb, hholds, hfetch⟩ := h.entry u hu
  refine ⟨e, he, hd, hwb, fun hreal => (hholds hreal).congr (landed_update_of_ne ?_ d), hfetch⟩
  rintro rfl
  exact hk hreal

/-- Reads that were planned are done, or given up. -/
theorem fetch {fetches : Set (Fetch K D)}
    (hf : ∀ f ∈ fetches, ∃ f₀ ∈ s.fetches, f₀.key = f.key ∧ f₀.gen = f.gen) :
    Undoable real { s with fetches } before log := by
  refine ⟨h.nodup, fun u hu => ?_, h.rest⟩
  obtain ⟨e, he, hd, hwb, hholds, hfetch⟩ := h.entry u hu
  refine ⟨e, he, hd, hwb, hholds, fun hnone f hfm hfu => ?_⟩
  obtain ⟨f₀, hf₀, hkey, hgen⟩ := hf f hfm
  exact hgen ▸ hfetch hnone f₀ hf₀ (hkey.trans hfu)

end Undoable

end Leandros.WriteBack
