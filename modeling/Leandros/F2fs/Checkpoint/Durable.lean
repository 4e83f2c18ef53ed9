import Leandros.F2fs.Checkpoint.Recovery

/-!
# Leandros.F2fs.Checkpoint.Durable

**What is durable.** Changes are numbered (`clock`), and so are checkpoints (`started`); `stamp`
takes the second to the first. The marks of `mark_changed` bound from below the checkpoint that a
change needs, for every file that shares its slot (`Covered`), and `done` is passed only by
checkpoints that are complete (`Seq`). The invariant says so of every state, with what each running
checkpoint and each call of fsync has to do with it; a lemma for each kind of step keeps it.

The slots of the marks are shared between files, so a mark may be too new, never too old: an fsync can
wait for more than it has to. A failed run is noted with the calls that wait for it (`blame`).
-/

namespace Leandros.F2fs

open Function (update update_apply update_of_ne update_self)
open Option (bind_eq_some_iff map_eq_some_iff map_some)

namespace Fs

variable {D P : Type}

/-! ### The invariant -/

/-- A complete checkpoint has the first `m` changes. -/
def Durable (s : Fs D P) (m : Nat) : Prop :=
  ∃ k ∈ s.closed, m ≤ k.upTo ∧ k.upTo ≤ s.clock ∧ k.blocks = s.history k.upTo

theorem Durable.mono {s : Fs D P} {m n : Nat} (h : s.Durable n) (hm : m ≤ n) : s.Durable m := by
  obtain ⟨k, hk, hle, hkept⟩ := h
  exact ⟨k, hk, hm.trans hle, hkept⟩

/-- Checkpoint `n` has the first `m` changes, or will have them. -/
def Covered (s : Fs D P) (m n : Nat) : Prop :=
  m ≤ s.clock ∧ n ≤ s.started + 1 ∧ (n ≤ s.started → m ≤ s.stamp n)

/-- The numbers of the checkpoints. -/
structure Seq (s : Fs D P) : Prop where
  done : s.done ≤ s.started
  mono : ∀ i j, i ≤ j → j ≤ s.started → s.stamp i ≤ s.stamp j
  last : s.stamp s.started ≤ s.clock
  durable : s.Durable (s.stamp s.done)

/-- The call that waits for a checkpoint, if there is one. -/
def Serves (calls : Nat → Option Call) (r : Run D P) : Prop :=
  ∀ w, r.who = some w → ∃ c, calls w = some c ∧ c.stage = .running ∧ c.must ≤ r.snap.upTo ∧
    (c.fault = true → r.ok = false)

/-- A running checkpoint has the volume as it was when it began. -/
structure Ticket (s : Fs D P) (r : Run D P) : Prop where
  seq : r.seq ≤ s.started ∧ s.stamp r.seq = r.snap.upTo
  blocks : r.snap.upTo ≤ s.clock ∧ r.snap.blocks = s.history r.snap.upTo
  serves : Serves s.calls r

/-- A checkpoint with `F2FS_MOUNTS`: nothing has changed since it began. -/
structure Exclusive (s : Fs D P) (r : Run D P) : Prop where
  ticket : s.Ticket r
  held : s.request = none
  upTo : r.snap.upTo = s.clock
  ok : r.ok = true
  outer : ∀ seq, r.outer = some seq → seq ≤ s.started ∧ s.stamp seq = s.clock

/-- What is known of a call. -/
def Answered (s : Fs D P) (c : Call) : Prop :=
  match c.stage with
  | .waiting => c.fault = false ∧ s.Covered c.must c.need
  | .running => True
  | .returned ok => ok = true → c.fault = false ∧ s.Durable c.must

theorem Answered.imp {s s' : Fs D P} {c : Call} (ha : s.Answered c)
    (hcov : s.Covered c.must c.need → s'.Covered c.must c.need)
    (hdur : s.Durable c.must → s'.Durable c.must) : s'.Answered c := by
  unfold Answered at ha ⊢
  cases hst : c.stage with
  | waiting =>
    rw [hst] at ha
    exact ⟨ha.1, hcov ha.2⟩
  | running => trivial
  | returned =>
    rw [hst] at ha
    exact fun hok => ⟨(ha hok).1, hdur (ha hok).2⟩

/-- All changes are in a complete checkpoint or in one that runs. -/
def Clear (s : Fs D P) : Prop :=
  s.Durable s.clock ∨ ∃ r, s.unlocked = some r ∧ s.clock ≤ r.snap.upTo

/-- The test for a checkpoint that has nothing to do. -/
def Quiet (s : Fs D P) (dirty : List Nat) (pos : P) (dirtyWrites : Nat) : Prop :=
  dirtyWrites = 0 → s.lastPos = some pos → dirty = [] → s.Clear

/-- A request that runs. -/
structure Pending (s : Fs D P) (q : Request D P) : Prop where
  untouched : q.touched = false → s.mem = s.history s.clock
  touched : q.touched = true → s.dirtyWrites ≠ 0 ∨ s.dirty ≠ []
  marked : q.marked = true →
    s.modGlobal = s.started + 1 ∨ q.ino ≠ 0 ∧ s.inoMod (inoModIdx q.ino) = s.started + 1
  files : q.ino ≠ 0 → ∀ f ∈ q.files, f = q.ino
  saved : ∀ v, q.saved = some v → v.1 = s.history s.clock ∧ s.Quiet v.2.1 v.2.2.1 v.2.2.2

/-- The invariant. -/
structure Inv (s : Fs D P) : Prop where
  seq : s.Seq
  marks : ∀ ino, s.Covered (s.changed ino) (max (s.inoMod (inoModIdx ino)) s.modGlobal)
  request : ∀ q, s.request = some q → s.Pending q
  idle : s.request = none → s.mem = s.history s.clock
  unlocked : ∀ r, s.unlocked = some r →
    s.Ticket r ∧ (r.stage = .finished → r.ok = true → s.Durable r.snap.upTo)
  locked : ∀ r, s.locked = some r → s.Exclusive r
  apart : ∀ r l, s.unlocked = some r → s.locked = some l → ∀ w, r.who = some w → l.who ≠ some w
  calls : ∀ w c, s.calls w = some c → s.Answered c
  quiet : s.locked = none → s.Quiet s.dirty s.pos s.dirtyWrites
  readOnly : s.readOnly = true → s.request = none ∧ s.Durable s.clock

/-- What only checkpoints and the end of a request change. -/
def view (s : Fs D P) :=
  (s.started, s.done, s.stamp, s.clock, s.changed, s.history, s.closed, s.calls, s.unlocked)

namespace Inv

variable {s : Fs D P}

/-- What the invariant does not depend on. -/
theorem device (h : s.Inv) (disk : Disk D P) (wb : List Nat) (ver : Nat) (activePack : Bool) (tag : Nat)
    (issued : List (Capture D P)) : ({ s with disk, wb, ver, activePack, tag, issued } : Fs D P).Inv :=
  ⟨⟨h.seq.done, h.seq.mono, h.seq.last, h.seq.durable⟩, h.marks, fun q hq =>
      let hp := h.request q hq
      ⟨hp.untouched, hp.touched, hp.marked, hp.files, hp.saved⟩, h.idle, fun r hr =>
      let hu := h.unlocked r hr
      ⟨⟨hu.1.seq, hu.1.blocks, hu.1.serves⟩, hu.2⟩, fun r hr =>
      let hl := h.locked r hr
      ⟨⟨hl.ticket.seq, hl.ticket.blocks, hl.ticket.serves⟩, hl.held, hl.upTo, hl.ok, hl.outer⟩,
    h.apart, h.calls, h.quiet, h.readOnly⟩

variable {q : Request D P} {s' : Fs D P} {r : Run D P} {who : Option Nat}

theorem beside (h : s.Inv) (hv : s'.view = s.view)
    (marks : ∀ ino, s.Covered (s.changed ino) (max (s'.inoMod (inoModIdx ino)) s'.modGlobal))
    (request : ∀ q, s'.request = some q → s'.Pending q)
    (idle : s'.request = none → s'.mem = s.history s.clock)
    (locked : ∀ l, s'.locked = some l → s'.Exclusive l ∧
      ∀ u, s.unlocked = some u → ∀ w, u.who = some w → l.who ≠ some w)
    (quiet : s'.locked = none → s'.Quiet s'.dirty s'.pos s'.dirtyWrites)
    (readOnly : s'.readOnly = true → s'.request = none ∧ s.Durable s.clock) : s'.Inv := by
  cases s'
  obtain ⟨rfl, rfl, rfl, rfl, rfl, rfl, rfl, rfl, rfl⟩ := hv
  refine ⟨⟨h.seq.done, h.seq.mono, h.seq.last, h.seq.durable⟩, marks, request, idle, fun r hr => ?_,
    fun l hl => (locked l hl).1, fun r l hr hl => (locked l hl).2 r hr, h.calls, quiet, readOnly⟩
  have hu := h.unlocked r hr
  exact ⟨⟨hu.1.seq, hu.1.blocks, hu.1.serves⟩, hu.2⟩

/-- A request excludes what needs `F2FS_MOUNTS`. -/
theorem alone (h : s.Inv) (hq : s.request = some q) : s.locked = none ∧ s.readOnly = false := by
  constructor
  · cases hl : s.locked with
    | none => rfl
    | some r => exact absurd ((h.locked r hl).held.symm.trans hq) nofun
  · cases hr : s.readOnly with
    | false => rfl
    | true => exact absurd ((h.readOnly hr).1.symm.trans hq) nofun

/-! ### Requests -/

/-- A request changes the cache, the allocator and the marks. -/
theorem work (h : s.Inv) {q' : Request D P} (hq : s.request = some q) {mem : Nat → D} {dirty : List Nat}
    {pos : P} {dirtyWrites modGlobal : Nat} {inoMod : Nat → Nat}
    (hmarks : ∀ ino, s.Covered (s.changed ino) (max (inoMod (inoModIdx ino)) modGlobal))
    (hp : ({ s with mem, dirty, pos, dirtyWrites, modGlobal, inoMod, request := some q' } :
      Fs D P).Pending q')
    (hquiet : s.Quiet dirty pos dirtyWrites) :
    ({ s with mem, dirty, pos, dirtyWrites, modGlobal, inoMod, request := some q' } : Fs D P).Inv := by
  obtain ⟨hl, hro⟩ := h.alone hq
  refine h.beside rfl hmarks ?_ nofun (fun r hr => ?_) (fun _ => hquiet) fun hr => ?_
  · rintro _ ⟨⟩
    exact hp
  · exact absurd (hl.symm.trans hr) nofun
  · exact absurd (hro.symm.trans hr) nofun

theorem begin (h : s.Inv) {ino : Nat} {files : List Nat} (hs : s.begin ino files = some s') :
    s'.Inv := by
  obtain ⟨⟨hun, hro, hfiles⟩, rfl⟩ := guard_eq_some hs
  obtain ⟨hq, hl⟩ := unheld_iff.mp hun
  refine h.beside rfl h.marks ?_ nofun (fun r hr => ?_) h.quiet fun hr => absurd hr hro
  · rintro _ ⟨⟩
    refine ⟨fun _ => h.idle hq, nofun, nofun, hfiles, ?_⟩
    rintro _ ⟨⟩
    exact ⟨h.idle hq, h.quiet hl⟩
  · exact absurd (hl.symm.trans hr) nofun

theorem store (h : s.Inv) {b : Nat} {d : D} (hs : s.store b d = some s') : s'.Inv := by
  obtain ⟨q, hq, rfl⟩ := map_eq_some_iff.mp hs
  have hp := h.request q hq
  have hdirty : (if b ∈ s.dirty then s.dirty else b :: s.dirty) ≠ [] := by
    split
    · next hb => exact List.ne_nil_of_mem hb
    · exact List.cons_ne_nil _ _
  exact h.work hq h.marks ⟨nofun, fun _ => .inr hdirty, hp.marked, hp.files, hp.saved⟩
    fun _ _ he => absurd he hdirty

theorem alloc (h : s.Inv) {pos : P} (hs : s.alloc pos = some s') : s'.Inv := by
  obtain ⟨q, hq, hs⟩ := bind_eq_some_iff.mp hs
  obtain ⟨ht, rfl⟩ := guard_eq_some hs
  have hp := h.request q hq
  have hwork : ({ s with pos, request := some q } : Fs D P).Inv := h.work hq h.marks
    ⟨hp.untouched, hp.touched, hp.marked, hp.files, hp.saved⟩ fun hdw _ hd => ?_
  · rw [← hq] at hwork
    exact hwork
  · rcases hp.touched ht with hne | hne
    · exact absurd hdw hne
    · exact absurd hd hne

theorem nextCpSeq_eq (hs : s.started + 1 < 2 ^ 64) : s.nextCpSeq = s.started + 1 := by
  rw [nextCpSeq, Nat.mod_eq_of_lt (by omega)]

/-- A mark for the next checkpoint covers any change. -/
theorem covered_next {m n : Nat} (hm : m ≤ s.clock) (hn : s.started + 1 ≤ n) (hle : n ≤ s.started + 1) :
    s.Covered m n :=
  ⟨hm, hle, fun hx => by omega⟩

section

variable (h : s.Inv)
include h

/-- A request that changed something, and has marked it, ends. -/
theorem finishTouched (hq : s.request = some q) (hm : q.marked = true) (ht : q.touched = true) :
    ({ s with
        request := none
        clock := s.clock + 1
        changed := fun f => if f ∈ q.files then s.clock + 1 else s.changed f
        history := update s.history (s.clock + 1) s.mem } : Fs D P).Inv := by
  have hp := h.request q hq
  obtain ⟨hl, hro⟩ := h.alone hq
  -- the new moment is past all those that a capture can name
  have hist : ∀ n, n ≤ s.clock → update s.history (s.clock + 1) s.mem n = s.history n :=
    fun n hn => update_of_ne (by omega) _ _
  have hdur : ∀ {m}, s.Durable m → ∃ k ∈ s.closed, m ≤ k.upTo ∧ k.upTo ≤ s.clock + 1 ∧
      k.blocks = update s.history (s.clock + 1) s.mem k.upTo := by
    rintro m ⟨k, hk, hle, hkc, hb⟩
    exact ⟨k, hk, hle, Nat.le_succ_of_le hkc, hb.trans (hist _ hkc).symm⟩
  have hnew : update s.history (s.clock + 1) s.mem (s.clock + 1) = s.mem :=
    update_self ..
  refine ⟨⟨h.seq.done, h.seq.mono, Nat.le_succ_of_le h.seq.last, hdur h.seq.durable⟩, fun ino => ?_, nofun,
    fun _ => hnew.symm, fun r hr => ?_, fun r hr => ?_, h.apart, fun w c hc => ?_,
    fun _ hdw _ hd => ?_, fun hr => absurd (hro.symm.trans hr) nofun⟩
  · have hc := h.marks ino
    dsimp only
    split
    · next hf =>
      -- a file of the request changed now, and its mark went up with it
      refine ⟨Nat.le_refl _, hc.2.1, fun hx => ?_⟩
      rcases hp.marked hm with hmod | ⟨hino, hmod⟩
      · dsimp only at hx
        omega
      · rw [hp.files hino ino hf] at hx
        dsimp only at hx
        omega
    · exact ⟨Nat.le_succ_of_le hc.1, hc.2.1, hc.2.2⟩
  · obtain ⟨ht, hfin⟩ := h.unlocked r hr
    exact ⟨⟨ht.seq, ⟨Nat.le_succ_of_le ht.blocks.1, ht.blocks.2.trans (hist _ ht.blocks.1).symm⟩,
      ht.serves⟩, fun h1 h2 => hdur (hfin h1 h2)⟩
  · exact absurd (hl.symm.trans hr) nofun
  · exact (h.calls w c hc).imp (fun hc => ⟨Nat.le_succ_of_le hc.1, hc.2⟩) hdur
  · rcases hp.touched ht with hne | hne
    · exact absurd hdw hne
    · exact absurd hd hne

section

variable (hst : s.started + 1 < 2 ^ 64)
include hst

theorem markChangedGlobal
    (hq : s.request = some q) : (s.markChangedGlobal q).Inv ∧
      (s.markChangedGlobal q).request = some { q with marked := true } := by
  have hp := h.request q hq
  have hmax : max s.modGlobal s.nextCpSeq = s.started + 1 := by
    have := (h.marks 0).2.1
    rw [nextCpSeq_eq hst]
    omega
  refine ⟨h.work hq (fun ino => ?_) ⟨hp.untouched, hp.touched, fun _ => .inl hmax, hp.files, hp.saved⟩
    (h.quiet (h.alone hq).1), rfl⟩
  have hc := h.marks ino
  have := hc.2.1
  exact covered_next hc.1 (by omega) (by omega)

theorem markChanged
    (hq : s.request = some q) : (s.markChanged q).Inv := by
  unfold Fs.markChanged
  split
  case isFalse => exact (h.markChangedGlobal hst hq).1
  next hino =>
      have hp := h.request q hq
      have hmax : max (s.inoMod (inoModIdx q.ino)) s.nextCpSeq = s.started + 1 := by
        have := (h.marks q.ino).2.1
        rw [nextCpSeq_eq hst]
        omega
      refine h.work hq (fun ino => ?_) ⟨hp.untouched, hp.touched, fun _ => .inr ⟨hino, ?_⟩, hp.files,
        hp.saved⟩ (h.quiet (h.alone hq).1)
      · have hc := h.marks ino
        -- The files that share the slot of `q.ino` get its mark as well.
        by_cases hi : inoModIdx ino = inoModIdx q.ino
        · have := hc.2.1
          rw [hi, update_self]
          exact covered_next hc.1 (by omega) (by omega)
        · rw [update_of_ne hi]
          exact hc
      · exact (update_self ..).trans hmax

theorem maybeFlush
    (hq : s.request = some q) : (s.maybeFlush q).Inv := by
  have hp := h.request q hq
  have hne : min (s.dirtyWrites + 1) (2 ^ 32 - 1) ≠ 0 := by omega
  have htouched : ({ s with
      dirtyWrites := min (s.dirtyWrites + 1) (2 ^ 32 - 1)
      request := some { q with touched := true } } : Fs D P).Inv :=
    h.work hq h.marks ⟨nofun, fun _ => .inl hne, hp.marked, hp.files, hp.saved⟩
      fun he => absurd he hne
  exact htouched.markChanged hst rfl

theorem finish (hs : s.finish = some s') : s'.Inv := by
  obtain ⟨q, hq, rfl⟩ := map_eq_some_iff.mp hs
  have hp := h.request q hq
  cases ht : q.touched with
  | false =>
    rw [Bool.not_false, Bool.or_true]
    refine h.beside rfl h.marks nofun (fun _ => hp.untouched ht) (fun r hr => ?_) h.quiet
      fun hr => ⟨rfl, (h.readOnly hr).2⟩
    exact absurd ((h.alone hq).1.symm.trans hr) nofun
  | true =>
    cases hm : q.marked with
    | true => exact h.finishTouched hq hm ht
    | false =>
      obtain ⟨hg, hgq⟩ := h.markChangedGlobal hst hq
      exact hg.finishTouched (q := { q with marked := true }) hgq rfl ht

end

theorem doom (hs : s.doom = some s') : s'.Inv := by
  obtain ⟨q, hq, hs⟩ := bind_eq_some_iff.mp hs
  obtain ⟨v, hv, rfl⟩ := map_eq_some_iff.mp hs
  obtain ⟨hmem, hquiet⟩ := (h.request q hq).saved v hv
  refine h.beside rfl h.marks nofun (fun _ => hmem) (fun r hr => ?_) (fun _ => hquiet)
    fun hr => ⟨rfl, (h.readOnly hr).2⟩
  exact absurd ((h.alone hq).1.symm.trans hr) nofun

/-- A write of the backstop that lands and is not the last trace of a change. -/
theorem backstop {b : Nat} {a : Answer} (hs : s.backstop b a = some s')
    (ha : a.lands = true) (hb : b ∈ s.dirty → s.dirtyWrites = 0 → s.dirty.filter (· ≠ b) ≠ []) :
    s'.Inv := by
  obtain ⟨⟨hl, -⟩, rfl⟩ := guard_eq_some hs
  rw [if_pos ha]
  have hl : s.locked = none := Option.isNone_iff_eq_none.mp hl
  -- The test for nothing to do does not succeed because of this step.
  have hdirty : s.dirtyWrites = 0 → s.dirty.filter (· ≠ b) = [] → s.dirty = [] := by
    intro hdw he
    by_cases hm : b ∈ s.dirty
    · exact absurd he (hb hm hdw)
    · rwa [List.filter_eq_self.mpr] at he
      intro b' hb'
      exact decide_eq_true fun hx => hm (hx ▸ hb')
  refine h.beside rfl h.marks (fun q' hq' => ?_) (fun hq' => ?_) (fun r hr => ?_)
    (fun _ hdw hpos hd => ?_) fun hr => ?_
  · obtain ⟨q, hq, rfl⟩ := map_eq_some_iff.mp hq'
    have hp := h.request q hq
    refine ⟨hp.untouched, fun ht => ?_, hp.marked, hp.files, nofun⟩
    by_cases hdw : s.dirtyWrites = 0
    · refine .inr fun he => ?_
      rcases hp.touched ht with hne | hne
      · exact hne hdw
      · exact hne (hdirty hdw he)
    · exact .inl hdw
  · exact h.idle (Option.map_eq_none_iff.mp hq')
  · exact absurd (hl.symm.trans hr) nofun
  · exact h.quiet hl hdw hpos (hdirty hdw hd)
  · obtain ⟨hq, hd⟩ := h.readOnly hr
    exact ⟨Option.map_eq_none_iff.mpr hq, hd⟩

theorem remountRw : ({ s with readOnly := false } : Fs D P).Inv := by
  refine h.beside rfl h.marks (fun q hq => ?_) h.idle (fun r hr => ?_) h.quiet nofun
  · have hp := h.request q hq
    exact ⟨hp.untouched, hp.touched, hp.marked, hp.files, hp.saved⟩
  · have hl := h.locked r hr
    exact ⟨⟨⟨hl.ticket.seq, hl.ticket.blocks, hl.ticket.serves⟩, hl.held, hl.upTo, hl.ok, hl.outer⟩,
      fun u hu => h.apart u r hu hr⟩

end

/-! ### Calls -/

theorem of_waits (hw : s.waits who = true) {w : Nat} (hwho : who = some w) :
    ∃ c, s.calls w = some c ∧ c.stage = .waiting := by
  subst hwho
  obtain ⟨c, hc, hst⟩ := Option.any_eq_true _ _ |>.mp hw
  exact ⟨c, hc, of_decide_eq_true hst⟩

variable (h : s.Inv)
include h

theorem withCalls {calls : Nat → Option Call}
    (hans : ∀ w c, calls w = some c → s.Answered c)
    (hruns : ∀ r, s.unlocked = some r ∨ s.locked = some r → Serves calls r) :
    ({ s with calls } : Fs D P).Inv := by
  refine ⟨⟨h.seq.done, h.seq.mono, h.seq.last, h.seq.durable⟩, h.marks, fun q hq => ?_, h.idle,
    fun r hr => ?_, fun r hr => ?_, h.apart, hans, h.quiet, h.readOnly⟩
  · have hp := h.request q hq
    exact ⟨hp.untouched, hp.touched, hp.marked, hp.files, hp.saved⟩
  · have hu := h.unlocked r hr
    exact ⟨⟨hu.1.seq, hu.1.blocks, hruns r (.inl hr)⟩, hu.2⟩
  · have hl := h.locked r hr
    exact ⟨⟨hl.ticket.seq, hl.ticket.blocks, hruns r (.inr hr)⟩, hl.held, hl.upTo, hl.ok, hl.outer⟩

theorem serves (hr : s.unlocked = some r ∨ s.locked = some r) : Serves s.calls r := by
  rcases hr with hr | hr
  · exact (h.unlocked r hr).1.serves
  · exact (h.locked r hr).ticket.serves

/-- A call that no checkpoint serves changes its stage. -/
theorem setStage {g : CallStage}
    (hfree : ∀ w r, who = some w → s.unlocked = some r ∨ s.locked = some r → r.who ≠ some w)
    (hans : ∀ w c, who = some w → s.calls w = some c → s.Answered { c with stage := g }) :
    (s.setCall who fun c => { c with stage := g }).Inv := by
  rw [setCall_eq]
  refine h.withCalls (fun w c hc => ?_) fun r hr w hw => ?_
  · by_cases hwho : who = some w
    · rw [if_pos hwho] at hc
      obtain ⟨c₀, hc₀, rfl⟩ := map_eq_some_iff.mp hc
      exact hans w c₀ hwho hc₀
    · rw [if_neg hwho] at hc
      exact h.calls w c hc
  · rw [if_neg fun hwho => hfree w r hwho hr hw]
    exact h.serves hr w hw

/-- No checkpoint serves a call that is waiting. -/
theorem free_of_waits (hw : s.waits who = true) (w : Nat) (r : Run D P)
    (hwho : who = some w) (hr : s.unlocked = some r ∨ s.locked = some r) : r.who ≠ some w := by
  intro hrw
  obtain ⟨c, hc, hst⟩ := of_waits hw hwho
  obtain ⟨c', hc', hst', -⟩ := h.serves hr w hrw
  rw [Option.some.inj (hc.symm.trans hc'), hst'] at hst
  contradiction

/-- What is known of a call that is waiting. -/
theorem waiting (hw : s.waits who = true) {w : Nat} {c : Call}
    (hwho : who = some w) (hc : s.calls w = some c) : c.fault = false ∧ s.Covered c.must c.need := by
  obtain ⟨c', hc', hst⟩ := of_waits hw hwho
  cases hc.symm.trans hc'
  have ha := h.calls w c hc
  unfold Answered at ha
  rwa [hst] at ha

/-- A waiting call returns when all changes are durable. -/
theorem ret (hw : s.waits who = true)
    (hd : who ≠ none → s.Durable s.clock) : (s.ret who true).Inv := by
  refine h.setStage (h.free_of_waits hw) fun w c hwho hc => ?_
  obtain ⟨hf, hcov⟩ := h.waiting hw hwho hc
  exact fun _ => ⟨hf, (hd (by rw [hwho]; nofun)).mono hcov.1⟩

/-- A call of fsync notes the checkpoint that its file needs. -/
theorem arrive (hst : s.started + 1 < 2 ^ 64) {who : Nat} {file : Option Nat}
    (hs : s.arrive who file = some s') : s'.Inv := by
  obtain ⟨⟨-, hidle⟩, rfl⟩ := guard_eq_some hs
  have hnext := nextCpSeq_eq hst
  refine h.withCalls (fun w c hc => ?_) fun r hr w hw => ?_
  · rw [update_apply] at hc
    split at hc
    case isFalse => exact h.calls w c hc
    cases hc
    refine ⟨rfl, ?_⟩
    cases file with
    | none => exact covered_next (Nat.le_refl _) hnext.ge hnext.le
    | some ino =>
      have hm := h.marks ino
      dsimp only
      split
      · rw [hnext, Nat.min_eq_left hm.2.1]
        exact hm
      · exact covered_next hm.1 hnext.ge hnext.le
  · -- A call that a checkpoint serves is not idle.
    obtain ⟨c, hc, hrun, hrest⟩ := h.serves hr w hw
    have hne : w ≠ who := by
      rintro rfl
      rw [hc, Option.all_some, hrun] at hidle
      contradiction
    rw [update_of_ne hne]
    exact ⟨c, hc, hrun, hrest⟩

theorem skip {who : Nat} (hs : s.skip who = some s') : s'.Inv := by
  obtain ⟨c, hc, hs⟩ := bind_eq_some_iff.mp hs
  obtain ⟨⟨hst, hneed⟩, rfl⟩ := guard_eq_some hs
  have hw : s.waits (some who) = true := by simp [waits, hc, hst]
  refine h.setStage (h.free_of_waits hw) fun w c' hwho hc' => ?_
  cases hwho
  cases hc.symm.trans hc'
  obtain ⟨hf, hcov⟩ := h.waiting hw rfl hc
  have hq := h.seq
  exact fun _ => ⟨hf, hq.durable.mono
    ((hcov.2.2 (hneed.trans hq.done)).trans (hq.mono _ s.done hneed hq.done))⟩

/-! ### The numbers of checkpoints -/

/-- A new number stands for the moment at which it is taken. -/
theorem cpSeqBegin (hst : s.started + 1 < 2 ^ 64) (hun : s.unheld = true) :
    s.cpSeqBegin.Inv := by
  obtain ⟨hq, hl⟩ := unheld_iff.mp hun
  have hold : ∀ i, i ≤ s.started → update s.stamp (s.started + 1) s.clock i = s.stamp i :=
    fun i hi => update_of_ne (by omega) _ _
  have hnew : update s.stamp (s.started + 1) s.clock (s.started + 1) = s.clock :=
    update_self ..
  have hle : ∀ i, i ≤ s.started → s.stamp i ≤ s.clock :=
    fun i hi => (h.seq.mono i _ hi (Nat.le_refl _)).trans h.seq.last
  have hdone := h.seq.done
  rw [Fs.cpSeqBegin, nextCpSeq_eq hst]
  -- A change that the next checkpoint would have is in the one that begins.
  have hcov : ∀ {m n}, s.Covered m n → Covered { s with
      started := s.started + 1
      stamp := update s.stamp (s.started + 1) s.clock } m n := by
    rintro m n ⟨hm, hn, hmn⟩
    refine ⟨hm, Nat.le_succ_of_le hn, fun _ => ?_⟩
    rcases Nat.lt_or_ge s.started n with hlt | hge
    · obtain rfl : n = s.started + 1 := by omega
      exact hm.trans hnew.ge
    · exact (hmn hge).trans (hold n hge).ge
  refine ⟨⟨Nat.le_succ_of_le hdone, fun i j hij hj => ?_, hnew.le, ?_⟩, fun ino => hcov (h.marks ino),
    fun q hq' => ?_, h.idle, fun r hr => ?_, fun r hr => ?_, h.apart, fun w c hc => ?_, h.quiet, h.readOnly⟩
  · dsimp only at hj ⊢
    rcases Nat.lt_or_ge s.started j with hlt | hge
    · obtain rfl : j = s.started + 1 := by omega
      rw [hnew]
      rcases Nat.lt_or_ge s.started i with hlt' | hge'
      · obtain rfl : i = s.started + 1 := by omega
        exact hnew.le
      · exact (hold i hge').le.trans (hle i hge')
    · rw [hold j hge, hold i (hij.trans hge)]
      exact h.seq.mono i j hij hge
  · exact h.seq.durable.mono (hold _ hdone).le
  · exact absurd (hq.symm.trans hq') nofun
  · obtain ⟨ht, hfin⟩ := h.unlocked r hr
    exact ⟨⟨⟨Nat.le_succ_of_le ht.seq.1, (hold _ ht.seq.1).trans ht.seq.2⟩, ht.blocks, ht.serves⟩, hfin⟩
  · exact absurd (hl.symm.trans hr) nofun
  · exact (h.calls w c hc).imp hcov id

theorem cpSeqDone {seq : Nat} (hseq : seq ≤ s.started) (hd : s.Durable (s.stamp seq)) :
    (s.cpSeqDone seq).Inv := by
  refine ⟨⟨Nat.max_le.mpr ⟨h.seq.done, hseq⟩, h.seq.mono, h.seq.last, ?_⟩, h.marks, fun q hq => ?_,
    h.idle, fun r hr => ?_, fun r hr => ?_, h.apart, h.calls, h.quiet, h.readOnly⟩
  · change s.Durable (s.stamp (max s.done seq))
    rcases Nat.le_total s.done seq with hle | hle
    · rwa [Nat.max_eq_right hle]
    · rw [Nat.max_eq_left hle]
      exact h.seq.durable
  · have hp := h.request q hq
    exact ⟨hp.untouched, hp.touched, hp.marked, hp.files, hp.saved⟩
  · have hu := h.unlocked r hr
    exact ⟨⟨hu.1.seq, hu.1.blocks, hu.1.serves⟩, hu.2⟩
  · have hl := h.locked r hr
    exact ⟨⟨hl.ticket.seq, hl.ticket.blocks, hl.ticket.serves⟩, hl.held, hl.upTo, hl.ok, hl.outer⟩

/-! ### Checkpoints begin -/

theorem start (hw : s.waits who = true) :
    (s.setCall who fun c => { c with stage := .running }).Inv :=
  h.setStage (h.free_of_waits hw) fun _ _ _ _ => trivial

/-- The checkpoint that begins serves the call. -/
theorem serves_start (hw : s.waits who = true)
    (hwho : r.who = who) (hup : r.snap.upTo = s.clock) :
    Serves (s.setCall who fun c => { c with stage := .running }).calls r := by
  rw [setCall_eq]
  intro w hrw
  rw [hwho] at hrw
  obtain ⟨c, hc, -⟩ := of_waits hw hrw
  obtain ⟨hf, hcov⟩ := h.waiting hw hrw hc
  refine ⟨{ c with stage := .running }, ?_, rfl, hup ▸ hcov.1, fun hx => absurd (hf.symm.trans hx) nofun⟩
  dsimp only
  rw [if_pos hrw, hc, map_some]

theorem lock (hun : s.unheld = true)
    (hseq : r.seq ≤ s.started ∧ s.stamp r.seq = r.snap.upTo) (hup : r.snap.upTo = s.clock)
    (hblocks : r.snap.blocks = s.mem) (hok : r.ok = true)
    (houter : ∀ seq, r.outer = some seq → seq ≤ s.started ∧ s.stamp seq = s.clock)
    (hserves : Serves s.calls r)
    (hapart : ∀ u, s.unlocked = some u → ∀ w, u.who = some w → r.who ≠ some w) :
    ({ s with locked := some r } : Fs D P).Inv := by
  obtain ⟨hq, -⟩ := unheld_iff.mp hun
  refine h.beside rfl h.marks (fun q hq' => ?_) h.idle ?_ nofun h.readOnly
  · exact absurd (hq.symm.trans hq') nofun
  · rintro _ ⟨⟩
    exact ⟨⟨⟨hseq, ⟨hup.le, hblocks.trans ((h.idle hq).trans (congrArg s.history hup.symm))⟩, hserves⟩, hq,
      hup, hok, houter⟩, hapart⟩

theorem writeCheckpoint (hst : s.started + 1 < 2 ^ 64) (hun : s.unheld = true) (umount : Bool)
    {outer : Option Nat} (hw : s.waits who = true)
    (houter : ∀ seq, outer = some seq → seq ≤ s.started ∧ s.stamp seq = s.clock) :
    (s.writeCheckpoint umount who outer).Inv := by
  have hb := h.cpSeqBegin hst hun
  have hstarted : s.cpSeqBegin.started = s.started + 1 := nextCpSeq_eq hst
  -- the checkpoint covers the moment it starts at
  have hnew : s.cpSeqBegin.stamp s.cpSeqBegin.started = s.clock := update_self ..
  have hold : ∀ i, i ≤ s.started → s.cpSeqBegin.stamp i = s.stamp i := fun i hi =>
    update_of_ne (by rw [nextCpSeq_eq hst]; omega) _ _
  have hwaits : s.cpSeqBegin.waits who = true := hw
  have hrun := hb.start hwaits
  unfold Fs.writeCheckpoint
  dsimp only
  have hserves := fun r hwho hup => hb.serves_start (r := r) hwaits hwho hup
  have hfree := hb.free_of_waits hwaits
  rw [setCall_eq] at hrun hserves ⊢
  refine hrun.lock hun ⟨Nat.le_refl _, hnew⟩ rfl rfl rfl (fun seq ho => ?_) (hserves _ rfl rfl)
    fun u hu w huw hwho => hfree w u hwho (.inl hu) huw
  obtain ⟨hle, hstamp⟩ := houter seq ho
  exact ⟨hle.trans (hstarted ▸ Nat.le_succ _), (hold seq hle).trans hstamp⟩

/-- Phase 1: the unlocked checkpoint has all changes. -/
theorem snapshot (hun : s.unheld = true)
    (hseq : r.seq ≤ s.started ∧ s.stamp r.seq = r.snap.upTo) (hup : r.snap.upTo = s.clock)
    (hblocks : r.snap.blocks = s.mem) (hstage : r.stage ≠ .finished) (hserves : Serves s.calls r) :
    ({ s with dirty := [], dirtyWrites := 0, lastPos := some s.pos, unlocked := some r } :
      Fs D P).Inv := by
  obtain ⟨hq, hl⟩ := unheld_iff.mp hun
  refine ⟨⟨h.seq.done, h.seq.mono, h.seq.last, h.seq.durable⟩, h.marks, fun q hq' => ?_, h.idle, ?_,
    fun l hl' => ?_, fun _ l _ hl' => ?_, h.calls, fun _ _ _ _ => .inr ⟨r, rfl, hup.ge⟩, h.readOnly⟩
  · exact absurd (hq.symm.trans hq') nofun
  · rintro _ ⟨⟩
    exact ⟨⟨hseq, ⟨hup.le, hblocks.trans ((h.idle hq).trans (congrArg s.history hup.symm))⟩, hserves⟩,
      fun hx => absurd hx hstage⟩
  · exact absurd (hl.symm.trans hl') nofun
  · exact absurd (hl.symm.trans hl') nofun

/-! ### Checkpoints run -/

/-- An unlocked checkpoint takes a step. -/
theorem setUnlocked (r' : Run D P) (hu : s.unlocked = some r) (hseq : r'.seq = r.seq)
    (hsnap : r'.snap = r.snap) (hwho : r'.who = r.who) (hok : r'.ok = true → r.ok = true)
    (hfin : r'.stage = .finished → r'.ok = true → s.Durable r.snap.upTo) :
    ({ s with unlocked := some r' } : Fs D P).Inv := by
  obtain ⟨ht, -⟩ := h.unlocked r hu
  -- what the run makes clear it still does
  have hclear : s.Clear → Clear { s with unlocked := some r' } := by
    rintro (hd | ⟨u, hu', hup⟩)
    · exact .inl hd
    · cases hu.symm.trans hu'
      exact .inr ⟨r', rfl, hsnap ▸ hup⟩
  refine ⟨⟨h.seq.done, h.seq.mono, h.seq.last, h.seq.durable⟩, h.marks, fun q hq => ?_, h.idle, ?_,
    fun l hl => ?_, ?_, h.calls, fun hl h1 h2 h3 => hclear (h.quiet hl h1 h2 h3), h.readOnly⟩
  · have hp := h.request q hq
    exact ⟨hp.untouched, hp.touched, hp.marked, hp.files, fun v hv =>
      ⟨(hp.saved v hv).1, fun h1 h2 h3 => hclear ((hp.saved v hv).2 h1 h2 h3)⟩⟩
  · rintro _ ⟨⟩
    refine ⟨⟨hsnap ▸ hseq ▸ ht.seq, hsnap ▸ ht.blocks, fun w hw => ?_⟩, fun h1 h2 => hsnap ▸ hfin h1 h2⟩
    -- a call that this run serves may have been told of a fault already
    obtain ⟨c, hc, hst, hm, hf⟩ := ht.serves w (hwho ▸ hw)
    refine ⟨c, hc, hst, hsnap ▸ hm, fun hx => ?_⟩
    cases hr' : r'.ok with
    | false => rfl
    | true => exact absurd ((hok hr').symm.trans (hf hx)) nofun
  · have hl := h.locked l hl
    exact ⟨⟨hl.ticket.seq, hl.ticket.blocks, hl.ticket.serves⟩, hl.held, hl.upTo, hl.ok, hl.outer⟩
  · rintro _ l ⟨⟩ hl w hw
    exact h.apart r l hu hl w (hwho ▸ hw)

/-- The device refused what an unlocked checkpoint asked for. -/
theorem blame (hu : s.unlocked = some r) (ok : Bool) (hok : ok = false → r.ok = false) :
    (s.blame r.who ok).Inv := by
  rw [blame_eq]
  refine h.withCalls (fun w c hc => ?_) fun r' hr' w hw => ?_
  · split at hc
    case isFalse => exact h.calls w c hc
    next hx =>
        obtain ⟨c₀, hc₀, rfl⟩ := map_eq_some_iff.mp hc
        obtain ⟨c', hc', hrun, -⟩ := (h.unlocked r hu).1.serves w hx.2
        cases hc₀.symm.trans hc'
        rw [hrun]
        trivial
  · obtain ⟨c, hc, hrun, hm, hf⟩ := h.serves hr' w hw
    split
    case isFalse => exact ⟨c, hc, hrun, hm, hf⟩
    next hx =>
        -- only a failed run is blamed, and a call has one run
        refine ⟨{ c with fault := true }, by rw [hc, map_some], hrun, hm, fun _ => ?_⟩
        rcases hr' with hr' | hr'
        · cases hu.symm.trans hr'
          exact hok hx.1
        · exact absurd hw (h.apart r r' hu hr' w hx.2)

/-- A checkpoint with `F2FS_MOUNTS` takes a step. -/
theorem setLocked (r' : Run D P) (hl : s.locked = some r) (hseq : r'.seq = r.seq)
    (houter : r'.outer = r.outer) (hup : r'.snap.upTo = r.snap.upTo)
    (hblocks : r'.snap.blocks = r.snap.blocks) (hwho : r'.who = r.who) (hok : r'.ok = r.ok)
    (dirty : List Nat) : ({ s with dirty, locked := some r' } : Fs D P).Inv := by
  obtain ⟨ht, hq, hclock, hrok, hout⟩ := h.locked r hl
  refine h.beside rfl h.marks (fun q hq' => ?_) h.idle ?_ nofun h.readOnly
  · exact absurd (hq.symm.trans hq') nofun
  rintro _ ⟨⟩
  refine ⟨⟨⟨hup ▸ hseq ▸ ht.seq, ?_, fun w hw => ?_⟩, hq, hup.trans hclock, hok.trans hrok,
    houter ▸ hout⟩, fun u hu w hw => ?_⟩
  · rw [hup, hblocks]
    exact ht.blocks
  · rw [hup, hok]
    exact ht.serves w (hwho ▸ hw)
  · rw [hwho]
    exact h.apart u r hu hl w hw

/-! ### Checkpoints end -/

/-- A checkpoint is complete. -/
theorem complete {k : Capture D P} (hk : k.upTo ≤ s.clock ∧ k.blocks = s.history k.upTo) :
    ({ s with closed := k :: s.closed } : Fs D P).Inv ∧
      Durable { s with closed := k :: s.closed } k.upTo := by
  -- one capture more takes no durable moment away
  have hdur : ∀ {m}, s.Durable m → Durable { s with closed := k :: s.closed } m := by
    rintro m ⟨k', hk', hrest⟩
    exact ⟨k', .tail _ hk', hrest⟩
  have hclear : s.Clear → Clear { s with closed := k :: s.closed } := Or.imp_left hdur
  refine ⟨⟨⟨h.seq.done, h.seq.mono, h.seq.last, hdur h.seq.durable⟩, h.marks, fun q hq => ?_, h.idle,
    fun r hr => ?_, fun r hr => ?_, h.apart, fun w c hc => ?_,
    fun hl h1 h2 h3 => hclear (h.quiet hl h1 h2 h3), fun hr => ⟨(h.readOnly hr).1, hdur (h.readOnly hr).2⟩⟩,
    ⟨k, .head _, Nat.le_refl _, hk⟩⟩
  · have hp := h.request q hq
    exact ⟨hp.untouched, hp.touched, hp.marked, hp.files, fun v hv =>
      ⟨(hp.saved v hv).1, fun h1 h2 h3 => hclear ((hp.saved v hv).2 h1 h2 h3)⟩⟩
  · have hu := h.unlocked r hr
    exact ⟨⟨hu.1.seq, hu.1.blocks, hu.1.serves⟩, fun h1 h2 => hdur (hu.2 h1 h2)⟩
  · have hl := h.locked r hr
    exact ⟨⟨hl.ticket.seq, hl.ticket.blocks, hl.ticket.serves⟩, hl.held, hl.upTo, hl.ok, hl.outer⟩
  · exact (h.calls w c hc).imp id hdur

theorem closeUnlocked (hu : s.unlocked = some r) :
    ({ s with
        closed := r.snap :: s.closed
        done := max s.done r.seq
        unlocked := some { r with stage := .finished } } : Fs D P).Inv := by
  obtain ⟨ht, -⟩ := h.unlocked r hu
  obtain ⟨hc, hd⟩ := h.complete ht.blocks
  have hdone := hc.cpSeqDone ht.seq.1 (ht.seq.2 ▸ hd)
  exact hdone.setUnlocked { r with stage := .finished } hu rfl rfl rfl id fun _ _ => hd

/-- The end of a checkpoint under the lock makes its moment durable. -/
theorem closeLocked (hl : s.locked = some r) (umount : Bool) {done : Nat}
    (hdone : done = max s.done r.seq ∨ ∃ seq, r.outer = some seq ∧ done = max (max s.done r.seq) seq) :
    ({ s with
        closed := r.snap :: s.closed
        done
        locked := none
        dirtyWrites := 0
        lastPos := some s.pos
        readOnly := s.readOnly || umount }.ret r.who true : Fs D P).Inv := by
  obtain ⟨ht, hq, hup, hok, hout⟩ := h.locked r hl
  obtain ⟨hc, hd⟩ := h.complete ht.blocks
  -- the sequence numbers that are done now have their moments on the medium
  have hseq : ({ s with closed := r.snap :: s.closed, done } : Fs D P).Inv := by
    have hin := hc.cpSeqDone ht.seq.1 (ht.seq.2 ▸ hd)
    rcases hdone with rfl | ⟨seq, ho, rfl⟩
    · exact hin
    · obtain ⟨hle, hstamp⟩ := hout seq ho
      exact hin.cpSeqDone hle (hd.mono (hstamp.trans hup.symm).le)
  rw [hup] at hd
  refine setStage ?_ (fun w u hw hr => ?_) fun w c hw hcw => ?_
  · refine hseq.beside rfl hseq.marks (fun q hq' => ?_) hseq.idle nofun (fun _ _ _ _ => .inl hd)
      fun _ => ⟨hq, hd⟩
    exact absurd (hq.symm.trans hq') nofun
  · rcases hr with hr | hr
    · exact fun hu => h.apart u r hr hl w hu hw
    · contradiction
  · obtain ⟨c', hc', -, hm, hf⟩ := ht.serves w hw
    obtain rfl := Option.some.inj (Eq.trans hcw.symm hc')
    refine fun _ => ⟨?_, hd.mono (hup ▸ hm)⟩
    -- the run went well, so no call of it was told of a fault
    cases hx : c.fault with
    | false => rfl
    | true => exact absurd (hok.symm.trans (hf hx)) nofun

/-- Phase 3 of a run that went well answers its calls with a durable moment. -/
theorem phase3 (hs : s.phase3 = some s') : s'.Inv := by
  obtain ⟨r, hr, hs⟩ := bind_eq_some_iff.mp hs
  obtain ⟨⟨hst, hun⟩, rfl⟩ := guard_eq_some hs
  obtain ⟨hq, hl⟩ := unheld_iff.mp hun
  obtain ⟨ht, hfin⟩ := h.unlocked r hr
  refine setStage ?_ (fun w u hw hu => ?_) fun w c hw hc => ?_
  · refine ⟨⟨h.seq.done, h.seq.mono, h.seq.last, h.seq.durable⟩, h.marks, fun q hq' => ?_, h.idle,
      nofun, fun l hl' => ?_, fun u _ hu => ?_, h.calls, fun _ hdw hpos hd => ?_, h.readOnly⟩
    · exact absurd (hq.symm.trans hq') nofun
    · exact absurd (hl.symm.trans hl') nofun
    · contradiction
    -- a failed run leaves a count that is not zero
    cases hok : r.ok with
    | false =>
      simp only [hok, Bool.false_eq_true, if_false] at hdw
      omega
    | true =>
      simp only [hok, if_true] at hdw
      rw [List.append_eq_nil_iff] at hd
      rcases h.quiet hl hdw hpos hd.1 with hdur | ⟨u, hu, hup⟩
      · exact .inl hdur
      · cases hr.symm.trans hu
        exact .inl ((hfin hst hok).mono hup)
  · rcases hu with hu | hu
    · contradiction
    · exact absurd (hl.symm.trans hu) nofun
  · intro hok
    obtain ⟨c', hc', -, hm, hf⟩ := ht.serves w hw
    obtain rfl := Option.some.inj (Eq.trans hc.symm hc')
    -- a run that went well is durable when it has finished
    refine ⟨?_, (hfin hst hok).mono hm⟩
    cases hx : c.fault with
    | false => rfl
    | true => exact absurd (hok.symm.trans (hf hx)) nofun

end Inv

end Fs

end Leandros.F2fs
