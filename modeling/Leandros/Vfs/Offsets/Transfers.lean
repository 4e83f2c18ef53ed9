import Leandros.Vfs.Offsets.Model

/-!
# Leandros.Vfs.Offsets.Transfers

**Transfers on a shared offset do not overlap**, in every run whose steps meet `State.Serial`: a call
moves bytes, or sets the offset, only from where the offset of its description still is and only while no
other call on the description has yet to store the offset it ended at; and a number is closed, or taken
by `dup2`, only while no call is in progress on it (`State.transfers_disjoint`).

The code does not see to any of it. Two reads may look the offset up before one of them stores it, and
`handle_write`, which does move the offset together with the bytes, stores it once more when others may
have moved it on (`State.reads_and_writes_overlap`); even `lseek(fd, 0, SEEK_CUR)` stores what it has
found. Writes with `O_APPEND` never overlap each other.

The invariant has two halves. `Table` ties the descriptors to the descriptions: copies share their entry
of `TMP_OFDS`, other descriptions do not, and its count is the number of copies, so that an entry that is
free has no descriptor. `Inv` adds where the offsets are: while a description is `Quiet`, all its
descriptors are at `last`, and the transfers so far lie below.
-/

namespace Leandros.Vfs.Offsets

open Function (update update_of_ne update_self)
open Option (bind_eq_some_iff map_eq_some_iff)

/-- Where the transfer of a call ended that has yet to store its offset. -/
def Call.stop (c : Call) : Option Nat :=
  match c.phase with
  | .storing v => some v
  | _ => none

namespace State
variable {T : Type}

/-- No call on the description has yet to store an offset. -/
def Quiet (s : State T) (d : Nat) : Prop := ∀ t, ∀ c ∈ s.calls t, c.entry.desc = d → c.stop = none

/-- No call on the description is in progress. -/
def Idle (s : State T) (d : Nat) : Prop := ∀ t, ∀ c ∈ s.calls t, c.entry.desc ≠ d

/-- The offset that the call would start at is the one that the descriptor has now. -/
def Fresh (s : State T) (c : Call) : Prop :=
  match c.phase with
  | .reading cur _ => (s.fds c.slot).map s.tmpPosGet = some cur
  | .writing _ => c.entry.append = true ∨ (s.fds c.slot).map s.tmpPosGet = some (s.tmpPosGet c.entry)
  | .placing cur _ => (s.fds c.slot).map s.tmpPosGet = some cur
  | _ => True

/-- No call in progress was made on the number. -/
def Unused (s : State T) (p : Slot) : Prop := ∀ t, ∀ c ∈ s.calls t, c.slot ≠ p

/-- Calls on one description take turns from the transfer to the store of the offset; a number that a
call in progress was made on keeps its descriptor; and a descriptor is copied only if it has an entry in
`TMP_OFDS` whose count, a `u32`, has room. -/
def Serial (s : State T) : Action T → Prop
  | .copy p q => (∀ e ∈ s.fds p, e.ofd ≠ 0 ∧ s.refs e.ofd + 1 < 2 ^ 32) ∧ s.Unused q
  | .close p => s.Unused p
  | .readTransfer t _ | .writeTransfer t _ | .seekSet t =>
    ∀ c ∈ s.calls t, s.Fresh c ∧ s.Quiet c.entry.desc
  | _ => True

/-! ### The invariant -/

/-- The descriptor with the number, its own offset apart. -/
def kind (s : State T) (p : Slot) : Option FdEntry := (s.fds p).map FdEntry.fixed

/-- What the descriptor tables have in common with the descriptions and the calls. -/
structure Table (s : State T) : Prop where
  shared : ∀ ⦃p q e e'⦄, s.kind p = some e → s.kind q = some e' → e.desc = e'.desc → p ≠ q →
    e.idx = e'.idx ∧ e.ofd = e'.ofd ∧ e.ofd ≠ 0
  own : ∀ ⦃p q e e'⦄, s.kind p = some e → s.kind q = some e' → e.ofd = e'.ofd → e.ofd ≠ 0 → e.desc = e'.desc
  counted : ∀ ⦃o⦄, o ≠ 0 → ∃ copies : Finset Slot,
    (∀ p, p ∈ copies ↔ (s.kind p).map FdEntry.ofd = some o) ∧ s.refs o = copies.card
  opened : ∀ ⦃p e⦄, s.kind p = some e → e.desc < s.opened
  call : ∀ ⦃t c⦄, s.calls t = some c → s.kind c.slot = some c.entry.fixed

structure Inv (s : State T) : Prop extends Table s where
  one : ∀ ⦃t t' c c'⦄, s.calls t = some c → s.calls t' = some c' → c.stop ≠ none → c'.stop ≠ none →
    c.entry.desc = c'.entry.desc → t = t'
  below : ∀ ⦃d⦄, s.Quiet d → ∀ x ∈ s.transfers d, x.stop ≤ s.last d
  window : ∀ ⦃t c v⦄, s.calls t = some c → c.stop = some v → ∀ x ∈ s.transfers c.entry.desc, x.stop ≤ v
  inFile : ∀ ⦃p e⦄, s.kind p = some e → ∀ x ∈ s.transfers e.desc, x.stop ≤ s.len e.idx
  last : ∀ ⦃p e⦄, s.fds p = some e → s.Quiet e.desc → s.tmpPosGet e = s.last e.desc
  fresh : ∀ ⦃d⦄, s.opened ≤ d → s.transfers d = []
  disjoint : ∀ d, (s.transfers d).Pairwise Transfer.Disjoint
  appendsInFile : ∀ i, ∀ x ∈ s.appends i, x.stop ≤ s.len i
  appendsDisjoint : ∀ i, (s.appends i).Pairwise Transfer.Disjoint

variable {s : State T} {p : Slot} {t : T} {c : Call} {x : Transfer}

theorem Init.inv (h : s.Init) : s.Inv := by
  refine ⟨⟨?_, ?_, fun o _ => ⟨∅, ?_⟩, ?_, ?_⟩, ?_, ?_, ?_, ?_, ?_, ?_, ?_, ?_, ?_⟩ <;>
    simp [kind, h.fds, h.calls, h.refs, h.transfers, h.appends]

variable {e : FdEntry} {ofd d v : Nat} {u : T}

theorem kind_of_fds (h : s.fds p = some e) : s.kind p = some e.fixed := by
  rw [kind, h, Option.map_some]

theorem Inv.setLocked (h : s.Inv) (l : Nat → Bool) : ({ s with locked := l } : State T).Inv :=
  { h with }

/-- An entry of `TMP_OFDS` that a descriptor has is in use. -/
theorem Table.refs_ne_zero (h : s.Table) (he : s.kind p = some e) (hofd : e.ofd ≠ 0) :
    s.refs e.ofd ≠ 0 := by
  obtain ⟨copies, hmem, hcard⟩ := h.counted hofd
  have hp : p ∈ copies := (hmem p).mpr (by rw [he]; rfl)
  rw [hcard]
  exact Finset.card_ne_zero_of_mem hp

theorem setPos_self (h : ofd ≠ 0) (v : Nat) : s.setPos ofd v ofd = v := by
  rw [setPos, if_pos h, update_self]

theorem setPos_of_ne {o : Nat} (h : o ≠ ofd) (v : Nat) : s.setPos ofd v o = s.pos o := by
  unfold setPos
  split
  · exact update_of_ne h _ _
  · rfl

/-- A description's offset is its own: moving another's does not change it. -/
theorem Table.tmpPosGet_setPos (h : s.Table) {q : Slot} {e₀ : FdEntry}
    (he : s.kind p = some e.fixed) (he₀ : s.kind q = some e₀.fixed) (hd : e.desc ≠ e₀.desc) (v : Nat) :
    ({ s with pos := s.setPos e₀.ofd v } : State T).tmpPosGet e = s.tmpPosGet e := by
  unfold tmpPosGet
  split
  · next hne =>
    refine setPos_of_ne (fun heq => hd ?_) v
    have hdesc := h.own he he₀ heq hne
    exact hdesc
  · rfl

theorem desc_of_fixed {e' : FdEntry} (h : e.fixed = e'.fixed) : e.desc = e'.desc := by
  have hdesc : e.fixed.desc = e'.fixed.desc := by rw [h]
  exact hdesc

/-- The descriptors after `tmp_pos_set`: those of the same description are at the new offset. -/
theorem Table.tmpPosSet (h : s.Table) {p₀ : Slot} {e₀ : FdEntry} (he₀ : s.fds p₀ = some e₀)
    (v : Nat) {e' : FdEntry} (he' : (s.tmpPosSet p₀ v).fds p = some e') :
    ∃ e, s.fds p = some e ∧ e'.fixed = e.fixed ∧
      (s.tmpPosSet p₀ v).tmpPosGet e' = if e.desc = e₀.desc then v else s.tmpPosGet e := by
  simp only [State.tmpPosSet, he₀] at he' ⊢
  by_cases hp : p = p₀
  · subst hp
    -- the descriptor that is written
    obtain rfl : { e₀ with pos := v } = e' := by simpa using he'
    refine ⟨e₀, he₀, rfl, ?_⟩
    simp only [tmpPosGet]
    split
    · next hofd => exact setPos_self hofd v
    · rfl
  · rw [update_of_ne hp] at he'
    -- another one: it shares the position exactly if it is of the same description
    refine ⟨e', he', rfl, ?_⟩
    by_cases hd : e'.desc = e₀.desc
    · obtain ⟨-, hofd, hne⟩ := h.shared (kind_of_fds he') (kind_of_fds he₀) hd hp
      change e'.ofd = e₀.ofd at hofd
      rw [if_pos hd, tmpPosGet, if_pos (show e'.ofd ≠ 0 from hne), hofd]
      exact setPos_self (hofd ▸ hne) v
    · rw [if_neg hd]
      exact h.tmpPosGet_setPos (kind_of_fds he') (kind_of_fds he₀) hd v

theorem kind_tmpPosSet (s : State T) (p₀ : Slot) (v : Nat) : (s.tmpPosSet p₀ v).kind = s.kind := by
  funext p
  by_cases hp : p = p₀
  · subst hp
    simp only [kind, State.tmpPosSet, update_self, Option.map_map]
    rfl
  · simp [kind, State.tmpPosSet, update_of_ne hp]

/-- **A transfer starts where the description's earlier transfers have all ended**, if it is fresh: at the
offset, which is where they have led, or at the end of the file. -/
theorem Inv.le_start (h : s.Inv) (hc : s.calls t = some c) (hq : s.Quiet c.entry.desc) {start : Nat}
    (hfresh : start = s.len c.entry.idx ∨ (s.fds c.slot).map s.tmpPosGet = some start) :
    ∀ y ∈ s.transfers c.entry.desc, y.stop ≤ start := by
  have hkind := h.call hc
  intro y hy
  rcases hfresh with rfl | hpos
  · exact h.inFile hkind y hy
  obtain ⟨e, he, rfl⟩ := map_eq_some_iff.mp hpos
  obtain ⟨e', he', hfix⟩ := map_eq_some_iff.mp hkind
  cases he.symm.trans he'
  have hd : e.desc = c.entry.desc := desc_of_fixed hfix
  rw [h.last he (hd ▸ hq), hd]
  exact h.below hq y hy

theorem readLen_le (s : State T) (idx cur count : Nat) : s.readLen idx cur count ≤ s.len idx - cur := by
  unfold readLen
  dsimp only
  split <;> omega

theorem stop_eq_none (h : ∀ v, c.phase ≠ .storing v) : c.stop = none := by
  unfold Call.stop
  split
  · next v hv => exact absurd hv (h v)
  · rfl

/-! ### Descriptors -/

theorem tmpOfdAlloc_free (h : s.tmpOfdAlloc ≠ 0) : s.refs s.tmpOfdAlloc = 0 := by
  unfold tmpOfdAlloc at h ⊢
  cases hfind : (List.range' 1 (maxTmpOfds - 1)).find? (fun i => s.refs i = 0) with
  | none => simp [hfind] at h
  | some => simpa using List.find?_some hfind

theorem kind_install {q : Slot} {e' : FdEntry} (h : (s.install p e).kind q = some e') :
    q = p ∧ e' = e.fixed ∨ q ≠ p ∧ s.kind q = some e' := by
  by_cases hq : q = p
  · subst hq
    have hself : (s.install q e).kind q = some e.fixed := kind_of_fds (update_self ..)
    exact .inl ⟨rfl, Option.some.inj (h.symm.trans hself)⟩
  · simp only [kind, install, update_of_ne hq] at h
    exact .inr ⟨hq, h⟩

theorem kind_remove (s : State T) (p q : Slot) :
    (s.remove p).kind q = if q = p then none else s.kind q := by
  simp only [kind, remove, Function.update_apply]
  split <;> rfl

theorem kind_of_remove {q : Slot} {e' : FdEntry} (h : (s.remove p).kind q = some e') :
    s.kind q = some e' := by
  rw [kind_remove] at h
  exact (Option.ite_none_left_eq_some.mp h).2

theorem refs_remove_le (s : State T) (p : Slot) (i : Nat) : (s.remove p).refs i ≤ s.refs i := by
  simp only [remove]
  cases s.fds p with
  | none => exact le_rfl
  | some e =>
    dsimp only
    split
    · by_cases hi : i = e.ofd
      · rw [hi, update_self]
        exact Nat.sub_le ..
      · rw [update_of_ne hi]
    · exact le_rfl

/-- The count of an entry goes down with the descriptor that had it. -/
theorem Table.refs_remove (h : s.Table) {o : Nat} (ho : o ≠ 0) : ∃ copies : Finset Slot,
    (∀ q, q ∈ copies ↔ ((s.remove p).kind q).map FdEntry.ofd = some o) ∧
      (s.remove p).refs o = copies.card := by
  obtain ⟨copies, hmem, hcard⟩ := h.counted ho
  -- the closed descriptor is among the copies exactly if it named this description
  have hp : p ∈ copies ↔ (s.fds p).map FdEntry.ofd = some o := by
    rw [hmem, kind, Option.map_map]
    rfl
  refine ⟨copies.erase p, fun q => ?_, ?_⟩
  · rw [Finset.mem_erase, hmem, kind_remove]
    split
    · next hq => simp [hq]
    · next hq => rw [and_iff_right hq]
  simp only [remove]
  cases hf : s.fds p with
  | none =>
    rw [hf] at hp
    rw [Finset.erase_eq_of_notMem (by rw [hp]; nofun)]
    exact hcard
  | some e =>
    rw [hf, Option.map_some, Option.some_inj] at hp
    dsimp only
    by_cases heq : e.ofd = o
    · rw [Finset.card_erase_of_mem (hp.mpr heq), ← hcard, heq, if_pos ho, update_self]
    · rw [Finset.erase_eq_of_notMem (hp.not.mpr heq), ← hcard]
      split
      · exact update_of_ne (Ne.symm heq) _ _
      · rfl

/-- A number is closed that no call in progress was made on. -/
theorem Inv.remove (h : s.Inv) (hp : s.Unused p) : (s.remove p).Inv :=
  { h with
    shared := fun _ _ _ _ he he' => h.shared (kind_of_remove he) (kind_of_remove he')
    own := fun _ _ _ _ he he' => h.own (kind_of_remove he) (kind_of_remove he')
    counted := fun _ ho => h.toTable.refs_remove ho
    opened := fun _ _ he => h.opened (kind_of_remove he)
    call := fun t c hc => by
      rw [kind_remove, if_neg (hp t c hc)]
      exact h.call hc
    inFile := fun _ _ he => h.inFile (kind_of_remove he)
    last := fun q e he hq => by
      have hold : s.fds q = some e := by
        simp only [State.remove, Function.update_apply] at he
        exact (Option.ite_none_left_eq_some.mp he).2
      exact h.last hold hq }

/-- A descriptor gets a number that fits its description: another descriptor of the description shares the
offset with it, and no other description does. -/
theorem Inv.install (h : s.Inv) (hp : s.fds p = none)
    (hshared : ∀ {q e'},
      s.kind q = some e' → e.desc = e'.desc → e.idx = e'.idx ∧ e.ofd = e'.ofd ∧ e.ofd ≠ 0)
    (hown : ∀ {q e'}, s.kind q = some e' → e.ofd = e'.ofd → e.ofd ≠ 0 → e.desc = e'.desc)
    (hroom : e.ofd ≠ 0 → s.refs e.ofd + 1 < 2 ^ 32) (hopened : e.desc < s.opened)
    (hfile : ∀ x ∈ s.transfers e.desc, x.stop ≤ s.len e.idx)
    (hlast : s.Quiet e.desc → s.tmpPosGet e = s.last e.desc) : (s.install p e).Inv := by
  refine { h with
    shared := fun _ _ _ _ he he' hdesc hne => ?shared
    own := fun _ _ _ _ he he' hofd hne => ?own
    counted := fun o ho => ?counted
    opened := fun _ _ he => ?opened
    call := fun _ _ hc => ?call
    inFile := fun _ _ he => ?inFile
    last := fun q e' he hq => ?last }
  case shared =>
    -- which of the two descriptors is the new one
    obtain ⟨rfl, rfl⟩ | ⟨-, hold⟩ := kind_install he <;> obtain ⟨rfl, rfl⟩ | ⟨-,
      hold'⟩ := kind_install he'
    · exact absurd rfl hne
    · exact hshared hold' hdesc
    · obtain ⟨hidx, hofd, hz⟩ := hshared hold hdesc.symm
      exact ⟨hidx.symm, hofd.symm, hofd ▸ hz⟩
    · exact h.shared hold hold' hdesc hne
  case own =>
    obtain ⟨rfl, rfl⟩ | ⟨-, hold⟩ := kind_install he <;> obtain ⟨rfl, rfl⟩ | ⟨-,
      hold'⟩ := kind_install he'
    · rfl
    · exact hown hold' hofd hne
    · exact (hown hold hofd.symm (hofd ▸ hne)).symm
    · exact h.own hold hold' hofd hne
  case counted =>
    obtain ⟨copies, hmem, hcard⟩ := h.counted ho
    -- the slot was free, so the new descriptor is not a copy yet
    have hpm : p ∉ copies := by
      rw [hmem, kind, hp]
      nofun
    have hkind : ∀ q, ((s.install p e).kind q).map FdEntry.ofd =
        if q = p then some e.ofd else (s.kind q).map FdEntry.ofd := by
      intro q
      simp only [kind, State.install, Function.update_apply]
      split <;> rfl
    by_cases heq : e.ofd = o
    · refine ⟨insert p copies, fun q => ?_, ?_⟩
      · rw [Finset.mem_insert, hkind, hmem]
        split <;> simp_all
      · have hne : e.ofd ≠ 0 := heq ▸ ho
        rw [Finset.card_insert_of_notMem hpm, ← hcard, ← heq]
        simp only [State.install, if_pos hne, update_self]
        exact Nat.mod_eq_of_lt (hroom hne)
    · refine ⟨copies, fun q => ?_, ?_⟩
      · rw [hkind, hmem]
        split
        · next hq => simp [hq, heq, kind, hp]
        · rfl
      · rw [← hcard]
        simp only [State.install]
        split
        · exact update_of_ne (Ne.symm heq) _ _
        · rfl
  case opened =>
    obtain ⟨-, rfl⟩ | ⟨-, hold⟩ := kind_install he
    · exact hopened
    · exact h.opened hold
  case call =>
    have hkind := h.call hc
    rw [kind] at hkind ⊢
    rw [← hkind]
    refine congrArg _ (update_of_ne (fun hslot => ?_) _ _)
    rw [hslot, hp] at hkind
    contradiction
  case inFile =>
    obtain ⟨-, rfl⟩ | ⟨-, hold⟩ := kind_install he
    · exact hfile
    · exact h.inFile hold
  case last =>
    by_cases hqp : q = p
    · subst hqp
      have hself : (s.install q e).fds q = some e := update_self ..
      cases he.symm.trans hself
      exact hlast hq
    · exact h.last ((update_of_ne hqp _ _).symm.trans he) hq

theorem tmpPosGet_describe (s : State T) (e : FdEntry) : (s.describe e.ofd e.pos).tmpPosGet e = e.pos := by
  unfold tmpPosGet
  split
  · next hne => exact setPos_self hne e.pos
  · rfl

/-- A new description takes an entry of `TMP_OFDS` that no descriptor has. -/
theorem Inv.describe (h : s.Inv) (hofd : ofd ≠ 0 → s.refs ofd = 0) (new : Nat) :
    (s.describe ofd new).Inv := by
  refine { h with
    opened := fun _ _ he => Nat.lt_succ_of_lt (h.opened he)
    below := fun d hq x hx => ?below
    last := fun p e he hq => ?last
    fresh := fun _ hd => h.fresh (Nat.le_of_succ_le hd) }
  case below =>
    -- a transfer is of a description that was open already
    have hd : d ≠ s.opened := fun hd => by
      rw [show (s.describe ofd new).transfers d = [] from h.fresh hd.ge] at hx
      contradiction
    rw [show (s.describe ofd new).last d = s.last d from update_of_ne hd _ _]
    exact h.below hq x hx
  case last =>
    have hkind := kind_of_fds he
    have hd : e.desc ≠ s.opened := (h.opened hkind).ne
    rw [show (s.describe ofd new).last e.desc = s.last e.desc from update_of_ne hd _ _, ← h.last he hq]
    unfold tmpPosGet
    split
    · next hne =>
      -- the cell of the new description has no descriptor, and that of `e` has one
      refine setPos_of_ne (fun heq => ?_) new
      have hcounted := h.refs_ne_zero hkind hne
      exact hcounted (show s.refs e.ofd = 0 from heq ▸ hofd (heq ▸ hne))
    · rfl

variable [DecidableEq T]

/-! ### Calls that move no bytes -/

theorem calls_setCall_of_ne (h : u ≠ t) (o : Option Call) :
    (s.setCall t o).calls u = s.calls u := update_of_ne h _ _

/-- Replacing a call that stores nothing by another such call is not seen by the rest. -/
theorem quiet_setCall {o : Option Call} (ht : ∀ c ∈ s.calls t, c.stop = none)
    (h : (s.setCall t o).Quiet d) : s.Quiet d := by
  intro u c hc hd
  by_cases hu : u = t
  · subst hu
    exact ht c hc
  · exact h u c (by rwa [calls_setCall_of_ne hu]) hd

theorem Inv.setCall (h : s.Inv) {o : Option Call} (ht : ∀ c ∈ s.calls t, c.stop = none)
    (ho : ∀ c ∈ o, c.stop = none ∧ s.kind c.slot = some c.entry.fixed) : (s.setCall t o).Inv := by
  have hcall : ∀ {u c}, (s.setCall t o).calls u = some c → c ∈ o ∨ s.calls u = some c := by
    intro u c hc
    by_cases hu : u = t
    · subst hu
      exact .inl (Eq.trans (update_self u o s.calls).symm hc)
    · exact .inr (by rwa [calls_setCall_of_ne hu] at hc)
  have hold : ∀ {u c}, (s.setCall t o).calls u = some c → c.stop ≠ none → s.calls u = some c := by
    intro u c hc hstop
    exact (hcall hc).resolve_left fun hco => hstop (ho c hco).1
  exact { h with
    call := fun _ _ hc => (hcall hc).elim (fun hco => (ho _ hco).2) fun hc => h.call hc
    one := fun _ _ _ _ hc hc' hs hs' => h.one (hold hc hs) (hold hc' hs') hs hs'
    below := fun _ hq => h.below (quiet_setCall ht hq)
    window := fun _ _ _ hc hv => h.window (hold hc (by simp [hv])) hv
    last := fun _ _ he hq => h.last he (quiet_setCall ht hq) }

/-- A call starts with a look-up. -/
theorem Inv.enter {s' : State T} (h : s.Inv) {f : FdEntry → Option Phase}
    (hf : ∀ e ph, f e = some ph → (⟨p, e, ph⟩ : Call).stop = none) (hs : s.enter t p f = some s') : s'.Inv := by
  obtain ⟨e, he, hs⟩ := bind_eq_some_iff.mp hs
  obtain ⟨ph, hph, hs⟩ := bind_eq_some_iff.mp hs
  obtain ⟨⟨hidle, -⟩, rfl⟩ := guard_eq_some hs
  refine h.setCall (fun c hc => ?_) fun c hc => ?_
  · rw [Option.isNone_iff_eq_none.mp hidle] at hc
    contradiction
  · cases hc
    exact ⟨hf e ph hph, kind_of_fds he⟩

/-! ### The store of an offset -/

theorem calls_store {c' : Call}
    (h : (s.store t c v).calls u = some c') : u ≠ t ∧ s.calls u = some c' := by
  by_cases hu : u = t
  · subst hu
    rw [show (s.store u c v).calls u = none from update_self ..] at h
    contradiction
  · exact ⟨hu, by rwa [show (s.store t c v).calls u = s.calls u from update_of_ne hu _ _] at h⟩

/-- Other descriptions are as quiet as before. -/
theorem quiet_store (hc : s.calls t = some c)
    (hd : c.entry.desc ≠ d) (h : (s.store t c v).Quiet d) : s.Quiet d := by
  intro u c' hc' hd'
  by_cases hu : u = t
  · subst hu
    cases hc.symm.trans hc'
    exact absurd hd' hd
  · exact h u c' ((update_of_ne hu _ _).trans hc') hd'

/-- A call ends with the store of the offset: of where its transfer has ended, of the offset as it is, or of
any other when the transfers until then no longer count. -/
theorem Inv.store (h : s.Inv) (hc : s.calls t = some c) {tr : Nat → List Transfer}
    (htr : c.stop = some v ∧ tr = s.transfers ∨
      (s.Quiet c.entry.desc ∧ (s.fds c.slot).map s.tmpPosGet = some v) ∧ tr = s.transfers ∨
      tr = update s.transfers c.entry.desc []) :
    ({ s.store t c v with transfers := tr } : State T).Inv := by
  obtain ⟨e₀, he₀, hfix⟩ := map_eq_some_iff.mp (h.call hc)
  have hd₀ : e₀.desc = c.entry.desc := desc_of_fixed hfix
  have hkind : (s.store t c v).kind = s.kind := kind_tmpPosSet ..
  -- the transfers that still count are below the new offset
  have hsub : ∀ d, (tr d).Sublist (s.transfers d) := by
    intro d
    obtain ⟨-, rfl⟩ | ⟨-, rfl⟩ | rfl := htr
    · exact .refl _
    · exact .refl _
    by_cases hd : d = c.entry.desc
    · rw [hd, update_self]
      exact List.nil_sublist _
    · rw [update_of_ne hd]
  have hbound : ∀ x ∈ tr c.entry.desc, x.stop ≤ v := by
    obtain ⟨hstop, rfl⟩ | ⟨⟨hq, hpos⟩, rfl⟩ | rfl := htr
    · exact h.window hc hstop
    · exact h.le_start hc hq (.inr hpos)
    · rw [update_self]
      nofun
  refine { h with
    shared := fun _ _ _ _ he he' => h.shared (hkind ▸ he) (hkind ▸ he')
    own := fun _ _ _ _ he he' => h.own (hkind ▸ he) (hkind ▸ he')
    counted := fun _ ho => hkind.symm ▸ h.counted ho
    opened := fun _ _ he => h.opened (hkind ▸ he)
    call := fun _ _ hc' => hkind.symm ▸ h.call (calls_store hc').2
    one := fun _ _ _ _ hc' hc'' => h.one (calls_store hc').2 (calls_store hc'').2
    below := fun d hq => ?_
    window := fun _ _ _ hc' hv x hx => h.window (calls_store hc').2 hv x ((hsub _).subset hx)
    inFile := fun _ _ he x hx => h.inFile (hkind ▸ he) x ((hsub _).subset hx)
    last := fun p e he hq => ?_
    fresh := fun d hd => List.sublist_nil.mp (h.fresh hd ▸ hsub d)
    disjoint := fun d => (h.disjoint d).sublist (hsub d) }
  · by_cases hd : c.entry.desc = d
    · subst hd
      rw [show (s.store t c v).last c.entry.desc = v from update_self ..]
      exact hbound
    · rw [show (s.store t c v).last d = s.last d from update_of_ne (Ne.symm hd) _ _]
      exact fun x hx => h.below (quiet_store hc hd hq) x ((hsub d).subset hx)
  obtain ⟨e₁, h₁, hf₁, hpos⟩ := h.toTable.tmpPosSet he₀ v he
  have hdesc : e.desc = e₁.desc := desc_of_fixed hf₁
  refine hpos.trans ?_
  split
  · next hd =>
    rw [hdesc, hd, hd₀]
    exact (update_self (β := fun _ => Nat) ..).symm
  · next hd =>
    rw [hd₀, ← hdesc] at hd
    rw [h.last h₁ (hdesc ▸ quiet_store hc (Ne.symm hd) hq), ← hdesc]
    exact (update_of_ne hd _ _).symm

/-! ### Transfers -/

theorem calls_transfer {c' : Call} (h : (s.transfer t c x).calls u = some c') :
    u = t ∧ c' = { c with phase := .storing x.stop } ∨ u ≠ t ∧ s.calls u = some c' := by
  by_cases hu : u = t
  · subst hu
    have hself : (s.transfer u c x).calls u = some { c with phase := .storing x.stop } := update_self ..
    exact .inl ⟨rfl, Option.some.inj (h.symm.trans hself)⟩
  · exact .inr ⟨hu, (update_of_ne hu _ _).symm.trans h⟩

/-- The call's description is not quiet, the others are as before. -/
theorem quiet_transfer (hc : s.calls t = some c)
    (h : (s.transfer t c x).Quiet d) : c.entry.desc ≠ d ∧ s.Quiet d := by
  have hne : c.entry.desc ≠ d := fun hd => by
    have hstop := h t { c with phase := .storing x.stop } (update_self ..) hd
    contradiction
  refine ⟨hne, fun u c' hc' hd' => ?_⟩
  by_cases hu : u = t
  · subst hu
    cases hc.symm.trans hc'
    exact absurd hd' hne
  · exact h u c' ((update_of_ne hu _ _).trans hc') hd'

theorem len_le_transfer (s : State T) (t : T) (c : Call) (x : Transfer) (i : Nat) :
    s.len i ≤ (s.transfer t c x).len i := by
  unfold transfer
  dsimp only
  split
  · by_cases hi : i = c.entry.idx
    · subst hi
      rw [update_self]
      exact Nat.le_max_left ..
    · rw [update_of_ne hi]
  · exact le_rfl

theorem stop_le_len_transfer (t : T) (hread : x.write = false → x.stop ≤ s.len c.entry.idx) :
    x.stop ≤ (s.transfer t c x).len c.entry.idx := by
  unfold transfer
  dsimp only
  split
  · rw [update_self]
    exact Nat.le_max_right ..
  · next hw => exact hread (by simpa using hw)

/-- Bytes are moved from where the description's earlier transfers have all ended. -/
theorem Inv.transfer (h : s.Inv) (hc : s.calls t = some c)
    (hq : s.Quiet c.entry.desc) (hle : x.start ≤ x.stop)
    (hstart : ∀ y ∈ s.transfers c.entry.desc, y.stop ≤ x.start)
    (hread : x.write = false → x.stop ≤ s.len c.entry.idx)
    (happend : x.write = true → c.entry.append = true → x.start = s.len c.entry.idx) :
    (s.transfer t c x).Inv := by
  have hkind : s.kind c.slot = some c.entry.fixed := h.call hc
  have htr : ∀ d, d ≠ c.entry.desc → (s.transfer t c x).transfers d = s.transfers d :=
    fun d hd => update_of_ne hd _ _
  have htr₀ : (s.transfer t c x).transfers c.entry.desc = x :: s.transfers c.entry.desc :=
    update_self ..
  have hbelow : ∀ y ∈ (s.transfer t c x).transfers c.entry.desc, y.stop ≤ x.stop := by
    rw [htr₀]
    exact List.forall_mem_cons.mpr ⟨le_rfl, fun y hy => (hstart y hy).trans hle⟩
  refine { h with
    call := fun _ _ hc' => ?call
    one := fun _ _ _ _ hc' hc'' hs' hs'' hd => ?one
    below := fun _ hq' => ?below
    window := fun _ c' _ hc' hv y hy => ?window
    inFile := fun p e he y hy => ?inFile
    last := fun _ _ he hq' => ?last
    fresh := fun d hd => ?fresh
    disjoint := fun d => ?disjoint
    appendsInFile := fun i y hy => ?appendsInFile
    appendsDisjoint := fun i => ?appendsDisjoint }
  case call =>
    obtain ⟨-, rfl⟩ | ⟨-, hc'⟩ := calls_transfer hc'
    · exact hkind
    · exact h.call hc'
  case one =>
    -- the call's description has been quiet until now
    obtain ⟨rfl, rfl⟩ | ⟨-, hold'⟩ := calls_transfer hc' <;>
      obtain ⟨rfl, rfl⟩ | ⟨-, hold''⟩ := calls_transfer hc''
    · rfl
    · exact absurd (hq _ _ hold'' hd.symm) hs''
    · exact absurd (hq _ _ hold' hd) hs'
    · exact h.one hold' hold'' hs' hs'' hd
  case below =>
    obtain ⟨hne, hq'⟩ := quiet_transfer hc hq'
    rw [htr _ hne.symm]
    exact h.below hq'
  case window =>
    obtain ⟨-, rfl⟩ | ⟨-, hc'⟩ := calls_transfer hc'
    · cases hv
      exact hbelow y hy
    have hne : c'.entry.desc ≠ c.entry.desc := fun hd => by
      rw [hq _ _ hc' hd] at hv
      contradiction
    rw [htr _ hne] at hy
    exact h.window hc' hv y hy
  case inFile =>
    by_cases hd : e.desc = c.entry.desc
    · have hidx : e.idx = c.entry.idx := by
        by_cases hp : p = c.slot
        · subst hp
          cases hkind.symm.trans he
          rfl
        · exact (h.shared he hkind hd hp).1
      rw [hidx]
      rw [hd] at hy
      exact (hbelow y hy).trans (stop_le_len_transfer t hread)
    · rw [htr _ hd] at hy
      exact (h.inFile he y hy).trans (len_le_transfer ..)
  case last =>
    obtain ⟨hne, hq'⟩ := quiet_transfer hc hq'
    refine Eq.trans ?_ (h.last he hq')
    cases hw : x.write with
    | true =>
      have hpos : (s.transfer t c x).pos = s.setPos c.entry.ofd x.stop := by simp [State.transfer, hw]
      rw [← h.toTable.tmpPosGet_setPos (kind_of_fds he) hkind hne.symm x.stop, tmpPosGet, tmpPosGet, hpos]
    | false =>
      have hpos : (s.transfer t c x).pos = s.pos := by simp [State.transfer, hw]
      rw [tmpPosGet, tmpPosGet, hpos]
  case fresh =>
    have hne : d ≠ c.entry.desc := fun heq => by
      have hlt := h.opened hkind
      rw [heq] at hd
      exact absurd hlt (Nat.not_lt.mpr hd)
    rw [htr d hne]
    exact h.fresh hd
  case disjoint =>
    by_cases hd : d = c.entry.desc
    · rw [hd, htr₀]
      exact .cons (fun y hy => .inr (hstart y hy)) (h.disjoint _)
    · rw [htr d hd]
      exact h.disjoint d
  case appendsInFile =>
    simp only [State.transfer] at hy
    split at hy
    · by_cases hi : i = c.entry.idx
      · subst hi
        rw [update_self] at hy
        rcases List.mem_cons.mp hy with rfl | hy
        · exact stop_le_len_transfer t hread
        · exact (h.appendsInFile _ y hy).trans (len_le_transfer ..)
      · rw [update_of_ne hi] at hy
        exact (h.appendsInFile i y hy).trans (len_le_transfer ..)
    · exact (h.appendsInFile i y hy).trans (len_le_transfer ..)
  case appendsDisjoint =>
    simp only [State.transfer]
    split
    · next hw =>
      by_cases hi : i = c.entry.idx
      · subst hi
        rw [update_self]
        refine .cons (fun y hy => .inr ?_) (h.appendsDisjoint _)
        rw [happend hw.1 hw.2]
        exact h.appendsInFile _ y hy
      · rw [update_of_ne hi]
        exact h.appendsDisjoint i
    · exact h.appendsDisjoint i

/-! ### Runs -/

/-- Dropping a call that stores nothing. -/
theorem Inv.finish (h : s.Inv) (hc : s.calls t = some c)
    (hstop : c.stop = none) : (s.setCall t none).Inv := by
  refine h.setCall (fun c' hc' => ?_) (by nofun)
  cases hc.symm.trans hc'
  exact hstop

/-- A step that `Serial` allows keeps the invariant. -/
theorem Inv.step {s' : State T} (h : s.Inv) {a : Action T} (ha : s.Serial a) (hs : s.step a = some s') :
    s'.Inv := by
  cases a with
  | openFile p idx writable append =>
    obtain ⟨⟨hp, -⟩, rfl⟩ := guard_eq_some hs
    have hd := h.describe (fun hne => tmpOfdAlloc_free hne) (if append then s.len idx else 0)
    refine hd.install hp (fun hk hdesc => ?_) (fun hk hofd hne => ?_) (fun hne => ?_)
      (Nat.lt_succ_self _) ?_ fun _ => ?_
    · exact absurd (h.opened hk) (hdesc ▸ lt_irrefl _)
    · exact absurd (hofd ▸ tmpOfdAlloc_free hne) (h.refs_ne_zero hk (hofd ▸ hne))
    · rw [show (s.describe s.tmpOfdAlloc _).refs s.tmpOfdAlloc = 0 from tmpOfdAlloc_free hne]
      decide
    · rw [show (s.describe s.tmpOfdAlloc _).transfers s.opened = [] from h.fresh le_rfl]
      nofun
    · rw [show (s.describe s.tmpOfdAlloc _).last s.opened = _ from update_self ..]
      exact tmpPosGet_describe s _
  | copy p q =>
    obtain ⟨e, he, hs⟩ := bind_eq_some_iff.mp hs
    obtain ⟨⟨hpq, -⟩, rfl⟩ := guard_eq_some hs
    obtain ⟨hofd, hroom⟩ := ha.1 e he
    -- `dup2` closes the number first, so the copy always goes to a free one.
    have hr := h.remove ha.2
    have hfree : (s.remove q).fds q = none := update_self ..
    have he' : (s.remove q).fds p = some e := (update_of_ne hpq _ _).trans he
    have hk := kind_of_fds he'
    have hfile := hr.inFile hk
    have hopened := hr.opened hk
    refine hr.install hfree (fun {p' e'} hk' hdesc => ?_) (fun hk' hofd' hne => ?_) (fun _ => ?_)
      hopened hfile (hr.last he')
    · by_cases hp : p' = p
      · subst hp
        cases hk.symm.trans hk'
        exact ⟨rfl, rfl, hofd⟩
      · obtain ⟨hidx, hofd', -⟩ := hr.shared hk hk' hdesc (Ne.symm hp)
        exact ⟨hidx, hofd', hofd⟩
    · have hdesc := hr.own hk hk' hofd' hne
      exact hdesc
    · exact (Nat.succ_le_succ (refs_remove_le s q e.ofd)).trans_lt hroom
  | close =>
    obtain ⟨-, rfl⟩ := guard_eq_some hs
    exact h.remove ha
  | read =>
    refine h.enter (fun e ph hph => stop_eq_none fun v hv => ?_) hs
    cases hph
    contradiction
  | readTransfer =>
    obtain ⟨c, hc, hs⟩ := bind_eq_some_iff.mp hs
    split at hs <;> try contradiction
    next cur count hph =>
    dsimp only at hs
    split at hs
    · cases hs
      exact h.finish hc (stop_eq_none (by simp [hph]))
    cases hs
    obtain ⟨hfresh, hq⟩ := ha c hc
    have hpos : (s.fds c.slot).map s.tmpPosGet = some cur := by simpa [Fresh, hph] using hfresh
    have hlen := readLen_le s c.entry.idx cur count
    refine h.transfer hc hq (Nat.le_add_right ..) (h.le_start hc hq (.inr hpos)) (fun _ => ?_) (by nofun)
    dsimp only
    omega
  | write =>
    refine h.enter (fun e ph hph => stop_eq_none fun v hv => ?_) hs
    obtain ⟨-, rfl⟩ := guard_eq_some hph
    contradiction
  | writeTransfer =>
    obtain ⟨c, hc, hs⟩ := bind_eq_some_iff.mp hs
    split at hs <;> try contradiction
    next count hph =>
    have hstop : c.stop = none := stop_eq_none (by simp [hph])
    dsimp only at hs
    split at hs
    · cases hs
      exact h.finish hc hstop
    split at hs
    · cases hs
      exact h.finish hc hstop
    obtain ⟨-, rfl⟩ := guard_eq_some hs
    obtain ⟨hfresh, hq⟩ := ha c hc
    refine h.transfer hc hq (Nat.le_add_right ..) (h.le_start hc hq ?_) (by nofun) fun _ happend => ?_
    · unfold writeStart
      split
      · exact .inl rfl
      · next happend =>
        rw [Fresh, hph] at hfresh
        exact .inr (hfresh.resolve_left happend)
    · exact if_pos happend
  | store =>
    obtain ⟨c, hc, hs⟩ := bind_eq_some_iff.mp hs
    split at hs
    · next v hph =>
      obtain ⟨-, rfl⟩ := guard_eq_some hs
      exact h.store hc (.inl ⟨by simp [Call.stop, hph], rfl⟩)
    · contradiction
  | lseek =>
    obtain ⟨s₁, hs₁, hs⟩ := bind_eq_some_iff.mp hs
    cases hs
    refine (h.enter (fun e ph hph => stop_eq_none fun v hv => ?_) hs₁).setLocked _
    cases hph
    contradiction
  | seekLen =>
    obtain ⟨c, hc, hs⟩ := bind_eq_some_iff.mp hs
    split at hs <;> try contradiction
    next offset whence cur hph =>
    have hstop : c.stop = none := stop_eq_none (by simp [hph])
    split at hs
    · cases hs
      refine h.setCall (fun c' hc' => ?_) fun c' hc' => ?_
      · cases hc.symm.trans hc'
        exact hstop
      · cases hc'
        have hk := h.call hc
        exact ⟨rfl, hk⟩
    · cases hs
      exact (h.finish hc hstop).setLocked _
  | seekSet =>
    obtain ⟨c, hc, hs⟩ := bind_eq_some_iff.mp hs
    split at hs
    · next cur new hph =>
      cases hs
      -- An `lseek` to where the offset is moves nothing.
      by_cases hnew : new = cur
      · obtain ⟨hfresh, hq⟩ := ha c hc
        rw [Fresh, hph] at hfresh
        rw [if_pos hnew]
        exact (h.store hc (.inr (.inl ⟨⟨hq, hnew ▸ hfresh⟩, rfl⟩))).setLocked _
      · rw [if_neg hnew]
        exact (h.store hc (.inr (.inr rfl))).setLocked _
    · contradiction

/-- **Transfers on a shared offset do not overlap.** In every state of a run the transfers of a
description since `lseek` last moved it cover different bytes, and so do all writes with `O_APPEND` to a
file; and while no call on a description is in progress, all its descriptors are at the offset where the
last transfer to complete has ended, or where `lseek` has put it since. -/
theorem transfers_disjoint {s : State T} (hr : Reachable Init Serial step s) :
    (∀ d, (s.transfers d).Pairwise Transfer.Disjoint) ∧ (∀ i, (s.appends i).Pairwise Transfer.Disjoint) ∧
      ∀ p e, s.fds p = some e → s.Idle e.desc → s.tmpPosGet e = s.last e.desc := by
  have h : s.Inv := hr.invariant (fun _ => Init.inv) fun _ _ _ hI ha hs => hI.step ha hs
  refine ⟨h.disjoint, h.appendsDisjoint, fun p e he hidle => h.last he fun t c hc hd => ?_⟩
  exact absurd hd (hidle t c hc)

section Runs

/-- `Serial` can be checked where there are finitely many threads. -/
instance [Fintype T] (s : State T) (d : Nat) : Decidable (s.Quiet d) :=
  inferInstanceAs (Decidable (∀ t, ∀ c ∈ s.calls t, c.entry.desc = d → c.stop = none))

instance (s : State T) (c : Call) : Decidable (s.Fresh c) :=
  match c with
  | ⟨_, _, .reading _ _⟩ => inferInstanceAs (Decidable (_ = some _))
  | ⟨_, _, .writing _⟩ => inferInstanceAs (Decidable (_ = true ∨ _ = some _))
  | ⟨_, _, .placing ..⟩ => inferInstanceAs (Decidable (_ = some _))
  | ⟨_, _, .storing _⟩ | ⟨_, _, .seeking ..⟩ => inferInstanceAs (Decidable True)

instance [Fintype T] (s : State T) (p : Slot) : Decidable (s.Unused p) :=
  inferInstanceAs (Decidable (∀ t, ∀ c ∈ s.calls t, c.slot ≠ p))

instance [Fintype T] (s : State T) (a : Action T) : Decidable (s.Serial a) :=
  match a with
  | .copy .. => inferInstanceAs (Decidable (_ ∧ _))
  | .close _ => inferInstanceAs (Decidable (s.Unused _))
  | .readTransfer .. | .writeTransfer .. | .seekSet _ => inferInstanceAs (Decidable (∀ c ∈ _, _))
  | .openFile .. | .read .. | .write .. | .store .. | .lseek .. | .seekLen .. =>
    inferInstanceAs (Decidable True)

/-- Files of eight bytes and no descriptors. -/
def start : State (Fin 3) where
  fds _ := none
  locked _ := false
  pos _ := 0
  refs _ := 0
  len _ := 8
  lent _ := none
  calls _ := none
  opened := 0
  transfers _ := []
  appends _ := []
  last _ := 0

theorem start_init : Init start := ⟨rfl, rfl, rfl, rfl, rfl, rfl⟩

/-- Two reads of one description return the same four bytes, since both have looked the offset up before
one of them stored it. And three writes: the store of the first moves the offset back over the second,
and the third lands on its bytes. -/
theorem reads_and_writes_overlap : (∃ s : State (Fin 3), Reachable Init (fun _ _ => True) step s ∧
      s.transfers 0 = [⟨false, 0, 4⟩, ⟨false, 0, 4⟩]) ∧
    ∃ s : State (Fin 3), Reachable Init (fun _ _ => True) step s ∧
      s.transfers 0 = [⟨true, 4, 8⟩, ⟨true, 4, 8⟩, ⟨true, 0, 4⟩] := by
  have hreads : ((replay (fun _ _ => True) step start [.openFile (1, 3) 0 true false, .copy (1, 3) (2, 3),
      .read 0 (1, 3) 4, .read 1 (2, 3) 4, .readTransfer 0 true, .readTransfer 1 true]).any fun s =>
        s.transfers 0 == [⟨false, 0, 4⟩, ⟨false, 0, 4⟩]) = true := by
    decide +kernel
  have hwrites : ((replay (fun _ _ => True) step start [.openFile (1, 3) 0 true false, .copy (1, 3) (2, 3),
      .write 0 (1, 3) 4, .write 1 (2, 3) 4, .writeTransfer 0 (some 4), .writeTransfer 1 (some 4), .store 1,
      .store 0, .write 2 (2, 3) 4, .writeTransfer 2 (some 4)]).any fun s =>
        s.transfers 0 == [⟨true, 4, 8⟩, ⟨true, 4, 8⟩, ⟨true, 0, 4⟩]) = true := by
    decide +kernel
  obtain ⟨s, hr, htr⟩ := Reachable.observe start_init hreads
  obtain ⟨s', hr', htr'⟩ := Reachable.observe start_init hwrites
  exact ⟨⟨s, hr, beq_iff_eq.mp htr⟩, s', hr', beq_iff_eq.mp htr'⟩

/-- A write through one descriptor and, when that is closed and the offset looked at, a read through
its copy. -/
theorem transfers_disjoint_in_turn :
    ∃ s : State (Fin 3), Reachable Init Serial step s ∧ (s.transfers 0).length = 2 ∧
      (s.transfers 0).Pairwise Transfer.Disjoint := by
  have hrun : ((replay Serial step start [.openFile (1, 3) 0 true false, .copy (1, 3) (2, 3),
      .write 0 (1, 3) 4, .writeTransfer 0 (some 4), .store 0, .close (1, 3), .lseek 2 (2, 3) 0 .cur,
      .seekLen 2 none, .seekSet 2, .read 1 (2, 3) 2, .readTransfer 1 true, .store 1]).any
      fun s => (s.transfers 0).length == 2) = true := by
    decide +kernel
  obtain ⟨s, hr, hlen⟩ := Reachable.observe start_init hrun
  exact ⟨s, hr, beq_iff_eq.mp hlen, (transfers_disjoint hr).1 0⟩

end Runs

end State

end Leandros.Vfs.Offsets
