import Leandros.Sched.Life.Pids

/-!
# Leandros.Sched.Life.Status

**The status a parent is told is that of the thread that ended the group.** Who wins
`claim_group_exit` decides how the process ends; the status itself travels in the leader's
task, and several others can write there: `exit_group_signal` stamps the whole group before
it claims, and a leader that exits or loses a claim puts down a code of its own.

A run keeps track of the winner's status for each group (`Verdict.won`) and of the groups
whose exec went ahead with no fatal signal since (`Verdict.survivor`).
-/

namespace Leandros.Sched

open Function (update update_apply update_eq_self update_of_ne update_self)
open Leandros.Sched.Task
open World
open RunQueue
open Option (all_some eq_none_iff_forall_ne_some map_eq_some_iff)
open Kernel

namespace Ctx

/-- The code a thread ends its group with. -/
def dying : Ctx → Option Int
  | .reparenting code _ | .killing code | .exiting code => some code
  | _ => none

/-- The thread execs. -/
def execs : Ctx → Bool
  | .dethreading | .takingOver => true
  | _ => false

/-- The signal a claimant dies of; 0 is none. -/
def signal : Ctx → Nat
  | .stamped signo => if signo ≤ 64 then signo else 0
  | _ => 0

theorem coarse_dying (x : Ctx) :
    x.coarse.dying = x.dying ∧ x.coarse.execs = x.execs ∧ x.coarse.signal = x.signal := by
  cases x <;> exact ⟨rfl, rfl, rfl⟩

variable {x : Ctx}

/-- An owner ends its group or execs. -/
theorem owning_cases (h : x.owning = true) : (∃ c, x.dying = some c) ∨ x.execs = true := by
  cases x with
  | reparenting code | killing code => exact .inl ⟨code, rfl⟩
  | dethreading | takingOver => exact .inr rfl
  | _ => contradiction

theorem owning_of_execs (h : x.execs = true) : x.owning = true := by
  cases x <;> first | rfl | contradiction

theorem dying_cases {c : Int} (h : x.dying = some c) :
    x.owning = true ∨ x = .exiting c := by
  cases x with
  | reparenting | killing => exact .inl rfl
  | exiting => exact .inr (congrArg _ (Option.some.inj h))
  | _ => contradiction

end Ctx

/-- What the tasks and the log say about how groups ended. -/
structure Judged (w : World) (won : Nat → Option ExitStatus) (survivor : Nat → Bool) : Prop where
  /-- Who ends a group does it with the winner's code. -/
  code : ∀ {p L c}, w.roster p = some L → L.phase.dying = some c →
    ∃ st, won L.tgid = some st ∧ st.code = c
  /-- The leader carries the winner's status. -/
  status : ∀ {g M st}, w.roster g = some M → won g = some st → M.tgid = g ∧ M.owner ≠ 0 ∧
    M.termSignal = st.termSignal ∧ (M.zombie = true → M.exitCode = st.code)
  exec : ∀ {p L}, w.roster p = some L → L.phase.execs = true → L.termSignal = 0 ∧ won L.tgid = none
  survived : ∀ {g M}, w.roster g = some M → survivor g = true → M.tgid = g → M.termSignal = 0
  logged : ∀ {e}, w.log.Holds e → e.isProcess = true →
    w.roster e.pid = none ∧ ∀ st, won e.pid = some st → e.status = st

namespace World

variable {w w' : World} {won won' : Nat → Option ExitStatus} {survivor survivor' : Nat → Bool}

/-- Nobody else ends the group of `p` with another code. -/
def Agrees (w : World) (p : Nat) (code : Int) : Prop :=
  ∀ q N c, w.roster q = some N → N.tgid = p → q ≠ p → N.phase.dying = some c → code = c

/-- A step that leaves the winner's status in place, and what it adds to the record. -/
structure Fair (w : World) (a : Action) (w' : World) (won won' : Nat → Option ExitStatus)
    (survivor survivor' : Nat → Bool) : Prop where
  /-- A winner finds its own signal on the leader, which has not died with another code. -/
  wins : ∀ {p L M code c}, w.roster p = some L → Claims p L.phase a code (.reparenting c true) →
    w.roster L.tgid = some M → (M.owner = 0 ∨ M.owner = p) →
    won' = update won L.tgid (some ⟨code, L.phase.signal⟩) ∧
      M.termSignal = L.phase.signal ∧ (M.zombie = true → M.exitCode = code)
  /-- A thread that is stamped does not win an exec. -/
  execs : ∀ {p L M code}, w.roster p = some L → Claims p L.phase a code .dethreading →
    w.roster L.tgid = some M → (M.owner = 0 ∨ M.owner = p) → won' = won ∧ L.termSignal = 0
  /-- A leader that loses does so with the winner's code. -/
  loses : ∀ {p L code win}, w.roster p = some L → Claims p L.phase a code win →
    (∀ M, w.roster L.tgid = some M → M.owner ≠ 0 ∧ M.owner ≠ p) →
    won' = won ∧ (L.zombie = false → L.tgid = p → w.Agrees p code)
  exits : ∀ {p L c}, a = .exit p c → w.roster p = some L → L.tgid = p → w.Agrees p c
  /-- While somebody else owns the group's exit, a stamp brings nothing new. -/
  stamps : ∀ {p L signo}, (a = .exitGroupSignal p signo ∨ ∃ frameOk, a = .act p frameOk) →
    w.roster p = some L → (∃ L', w'.roster p = some L' ∧ L'.phase = .stamped signo) →
    (∀ g, survivor' g = true → survivor g = true ∧ g ≠ L.tgid) ∧
    (signo ≠ 0 → signo ≤ 64 → ∀ q N, w.roster q = some N → N.tgid = L.tgid → q ≠ p →
      N.phase.owning = true → N.phase.execs = false ∧
        ∀ M, w.roster L.tgid = some M → M.termSignal = signo)
  creates : a.creates = true → won' = update won w.next none
  keeps : a.creates = false → (∀ p c, a ≠ .exitGroup p c) → won' = won
  survives : ∀ g, survivor' g = true → survivor g = true ∨
    ∃ p klocks L, a = .takeOver p klocks ∧ w.roster p = some L ∧ L.phase = .takingOver ∧
      (g = p ∧ (∃ L', w'.roster p = some L' ∧ L'.phase = .elsewhere) ∨
        g = L.tgid ∧ w'.roster p = none)

end World

/-- What `Judged` says of one task. -/
structure Fits (won : Nat → Option ExitStatus) (survivor : Nat → Bool) (q : Nat) (M : Life) :
    Prop where
  code : ∀ {c}, M.phase.dying = some c → ∃ st, won M.tgid = some st ∧ st.code = c
  status : ∀ {st}, won q = some st → M.tgid = q ∧ M.owner ≠ 0 ∧ M.termSignal = st.termSignal ∧
    (M.zombie = true → M.exitCode = st.code)
  exec : M.phase.execs = true → M.termSignal = 0 ∧ won M.tgid = none
  survived : survivor q = true → M.tgid = q → M.termSignal = 0

/-- No status is written to the task but the winner's. -/
structure Kept (won : Nat → Option ExitStatus) (q : Nat) (M M' : Life) : Prop where
  ids : M'.tgid = M.tgid ∧ M'.owner = M.owner ∧ M'.termSignal = M.termSignal
  dying : ∀ c, M'.phase.dying = some c → M.phase.dying = some c
  execs : M'.phase.execs = true → M.phase.execs = true
  code : M'.zombie = true → (M.zombie = true ∧ M'.exitCode = M.exitCode) ∨
    ∀ st, won q = some st → M'.exitCode = st.code

section

variable {won : Nat → Option ExitStatus} {survivor survivor' : Nat → Bool} {q : Nat} {M M' : Life}

theorem Kept.refl : Kept won q M M :=
  ⟨⟨rfl, rfl, rfl⟩, fun _ => id, id, fun hz => .inl ⟨hz, rfl⟩⟩

theorem Fits.mono (h : Fits won survivor q M) (hs : survivor' q = true → survivor q = true) :
    Fits won survivor' q M :=
  { h with survived := fun hq => h.survived (hs hq) }

/-- A task in ordinary code, in a group that nobody has won. -/
theorem Fits.fresh (hp : M.phase = .elsewhere) (hw : won q = none)
    (hs : survivor q = true → M.tgid = q → M.termSignal = 0) : Fits won survivor q M := by
  refine ⟨fun hc => ?_, fun hwq => ?_, fun hx => ?_, hs⟩
  · rw [hp] at hc
    contradiction
  · rw [hw] at hwq
    contradiction
  · rw [hp] at hx
    contradiction

/-- A life that keeps what `Kept` names is judged as before. -/
theorem Fits.kept (h : Fits won survivor q M) (hk : Kept won q M M') : Fits won survivor q M' := by
  obtain ⟨⟨htg, ho, hsig⟩, hd, he, hz⟩ := hk
  constructor
  · intro c hc
    rw [htg]
    exact h.code (hd c hc)
  · intro st hw
    obtain ⟨h1, h2, h3, h4⟩ := h.status hw
    refine ⟨htg.trans h1, ho ▸ h2, hsig.trans h3, fun hzm => ?_⟩
    -- a task that is a zombie was one before, or ends now with the status of the winner
    rcases hz hzm with ⟨hz, hx⟩ | hx
    · exact hx.trans (h4 hz)
    · exact hx st hw
  · intro hx
    rw [htg, hsig]
    exact h.exec (he hx)
  · intro hg htg'
    rw [hsig]
    exact h.survived hg (htg.symm.trans htg')

end

namespace Judged

variable {w w' : World} {won : Nat → Option ExitStatus} {survivor survivor' : Nat → Bool}

variable {M : Life} {g : Nat}

theorem fits (h : Judged w won survivor) {q : Nat} (hM : w.roster q = some M) :
    Fits won survivor q M :=
  ⟨h.code hM, h.status hM, h.exec hM, h.survived hM⟩

theorem of_fits (ht : ∀ {q M}, w.roster q = some M → Fits won survivor q M)
    (hl : ∀ {e}, w.log.Holds e → e.isProcess = true →
      w.roster e.pid = none ∧ ∀ st, won e.pid = some st → e.status = st) : Judged w won survivor :=
  ⟨fun hL => (ht hL).code, fun hM => (ht hM).status, fun hL => (ht hL).exec,
    fun hM => (ht hM).survived, hl⟩

/-- A record of the new log says no more than one of the old log did. -/
def Said (w : World) (e : ExitRecord) : Prop :=
  ∃ e₀, w.log.Holds e₀ ∧ e₀.pid = e.pid ∧ e₀.status = e.status ∧ e₀.isProcess = true

theorem Said.of_holds {e : ExitRecord} (he : w.log.Holds e) (hp : e.isProcess = true) :
    Said w e := ⟨e, he, rfl, rfl, hp⟩

theorem Said.of_refiles {log : ExitLog} {f : ExitRecord → ExitRecord} (hr : w.log.Refiles log f)
    (hf : ∀ e, (f e).pid = e.pid ∧ (f e).status = e.status ∧ (f e).isProcess = e.isProcess)
    {e : ExitRecord} (he : log.Holds e) (hp : e.isProcess = true) : Said w e := by
  obtain ⟨e₀, he₀, rfl | rfl⟩ := hr e he
  · exact .of_holds he₀ hp
  · obtain ⟨h1, h2, h3⟩ := hf e₀
    exact ⟨e₀, he₀, h1.symm, h2.symm, h3 ▸ hp⟩

variable {p : Nat} {L : Life} (h : Judged w won survivor)
include h

section

variable (hs : ∀ g, survivor' g = true → survivor g = true)
include hs

/-- A step that writes no status but the winner's. -/
theorem frame (ht : ∀ q M', w'.roster q = some M' → ∃ M, w.roster q = some M ∧ Kept won q M M')
    (hl : ∀ e, w'.log.Holds e → e.isProcess = true → Said w e ∨
      (w'.roster e.pid = none ∧ ∀ st, won e.pid = some st → e.status = st)) :
    Judged w' won survivor' := by
  refine .of_fits (fun {q M'} hM' => ?_) fun {e} he hp => ?_
  · obtain ⟨M, hM, hk⟩ := ht q M' hM'
    exact ((h.fits hM).mono (hs q)).kept hk
  rcases hl e he hp with ⟨e₀, he₀, hpid, hst, hpr⟩ | hnew
  · obtain ⟨hnone, hw⟩ := h.logged he₀ hpr
    rw [hpid] at hnone hw
    rw [← hst]
    refine ⟨eq_none_iff_forall_ne_some.mpr fun M' hM' => ?_, hw⟩
    obtain ⟨M, hM, -⟩ := ht e.pid M' hM'
    rw [hnone] at hM
    contradiction
  · exact hnew

theorem mono : Judged w won survivor' :=
  h.frame hs (fun _ M hM => ⟨M, hM, .refl⟩) fun _ he hp => .inl (.of_holds he hp)

/-- One task moves on. -/
theorem edit {f : Life → Life} (hL : w.roster p = some L) (hf : Kept won p L (f L)) :
    Judged (w.edit p f) won survivor' := by
  refine h.frame hs (fun q M' hM' => ?_) fun e he hp => .inl (.of_holds he hp)
  rcases edit_eq_some hL hM' with ⟨rfl, rfl⟩ | ⟨-, hM⟩
  · exact ⟨L, hL, hf⟩
  · exact ⟨M', hM, .refl⟩

/-- A task is taken off the queue and its exit logged. -/
theorem reap (hk : w.Keyed) {auto : Bool} (hL : w.roster p = some L)
    (hM : M.pid = L.pid ∧ M.tgid = L.tgid)
    (hst : ∀ st, won p = some st → L.tgid = p → (⟨M.exitCode, M.termSignal⟩ : ExitStatus) = st) :
    Judged (w.reap M auto) won survivor' := by
  have hp : M.pid = p := hM.1.trans (hk p L hL)
  refine h.frame hs (fun q M' hM' => ?_) fun e he hpr => ?_
  · exact ⟨M', of_reap hM', .refl⟩
  rcases ExitLog.holds_insert he with rfl | he
  · refine .inr ⟨?_, fun st hw => ?_⟩
    · exact if_pos rfl
    · have hl : M.pid = M.tgid := by simpa [record] using hpr
      have hw : won p = some st := by rw [← hp]; exact hw
      exact hst st hw (hM.2.symm.trans (hl.symm.trans hp))
  · exact .inl (.of_holds he hpr)

end

/-- While a thread of a group that was won still runs, somebody else ends it, with the
winner's code. -/
theorem exists_owner (ho : Owned w.cores)
    {st : ExitStatus} (hL : w.roster p = some L) (hg : L.tgid = g) (hp : L.phase.owning = false)
    (hp' : L.phase.ended = false) (hM : w.roster g = some M) (hw : won g = some st) :
    ∃ q N, w.roster q = some N ∧ N.tgid = g ∧ q ≠ p ∧ N.phase.owning = true ∧
      N.phase.dying = some st.code := by
  obtain ⟨-, h0, -⟩ := h.status hM hw
  obtain ⟨X, hX, hXt, hcase⟩ := ho.owner (cores_of hM) h0
  obtain ⟨N, hN, rfl⟩ := cores_eq_some hX
  -- the owner on record is not `p`, which is neither an owner nor at its end
  have hne : M.owner ≠ p := by
    rintro rfl
    cases hL.symm.trans hN
    rcases hcase with hcase | ⟨hcase, -⟩
    · rw [Life.core_phase, hp] at hcase
      contradiction
    · rw [Life.core_phase, hp'] at hcase
      contradiction
  have hown : N.phase.owning = true := by
    rcases hcase with hcase | ⟨-, hal⟩
    · exact hcase
    · exact absurd (hal p L.core (cores_of hL) hg).symm hne
  refine ⟨M.owner, N, hN, hXt, hne, hown, ?_⟩
  have hNt : N.tgid = g := hXt
  -- an owner that is to end the group has the winner's code; one that execs contradicts `won`
  rcases Ctx.owning_cases hown with ⟨c, hc⟩ | hx
  · obtain ⟨st', hw', hc'⟩ := h.code hN hc
    rw [hNt, hw] at hw'
    rw [hc, Option.some.inj hw', hc']
  · have hno := (h.exec hN hx).2
    rw [hNt, hw] at hno
    contradiction

/-- The killer's code is the winner's, and an exec kills nobody in a group that was won. -/
theorem kills {code : Int} {skip : Nat}
    {next : Ctx} (hL : w.roster p = some L) (hkl : Kills L code skip next) {st : ExitStatus}
    (hg : L.tgid = g) (hw : won g = some st) : code = st.code := by
  subst hg
  cases hkl with
  | group code hph =>
    obtain ⟨st', hw', hc⟩ := h.code hL (by rw [hph]; rfl)
    rw [hw] at hw'
    rw [Option.some.inj hw', hc]
  | dethread hph =>
    have hno := (h.exec hL (by rw [hph]; rfl)).2
    rw [hw] at hno
    contradiction

/-- A claim that finds the record free: `v` is the winner's status, or nothing for an exec. -/
theorem claim (ho : Owned w.cores) {x : Ctx}
    {v : Option ExitStatus} (hL : w.roster p = some L) (hM : w.roster L.tgid = some M)
    (hfree : M.owner = 0) (hcode : ∀ c, x.dying = some c → ∃ st, v = some st ∧ st.code = c)
    (hexec : x.execs = true → L.termSignal = 0 ∧ v = none)
    (hst : ∀ st, v = some st → M.termSignal = st.termSignal ∧
      (M.zombie = true → M.exitCode = st.code)) :
    Judged ((w.edit L.tgid fun M => { M with owner := p }).edit p fun L => { L with phase := x })
      (update won L.tgid v) survivor := by
  have hlead : M.tgid = L.tgid := ho.lead (cores_of hL) (cores_of hM)
  refine .of_fits (fun {q N'} hN' => ?_) fun {e} he hp => ?_
  · rw [roster_claim] at hN'
    obtain ⟨N, hN, rfl⟩ := map_eq_some_iff.mp hN'
    have hF := h.fits hN
    -- nobody else ends this group: the record was free
    have hne : q ≠ p → N.phase.owning = true ∨ (∃ c, N.phase = .exiting c) → N.tgid ≠ L.tgid := by
      rintro hq hown ht
      rcases hown with hown | ⟨c, hex⟩
      · have hno := ho.none_owns (cores_of hM) hfree (cores_of hN) ht
        rw [Life.core_phase, hown] at hno
        contradiction
      · exact hq (ho.alone (cores_of hN) hex p L.core (cores_of hL) ht.symm).symm
    constructor
    · intro c hc
      split at hc
      · next hq =>
        subst hq
        cases hL.symm.trans hN
        rw [update_self]
        exact hcode c hc
      · next hq =>
        rw [update_of_ne (hne hq ((Ctx.dying_cases hc).imp_right fun hex => ⟨c, hex⟩))]
        exact hF.code hc
    · intro st hw
      by_cases hg : q = L.tgid
      · subst hg
        cases hM.symm.trans hN
        rw [update_self] at hw
        rw [if_pos rfl]
        exact ⟨hlead, ho.nonzero (cores_of hL), hst st hw⟩
      · rw [update_of_ne hg] at hw
        rw [if_neg hg]
        exact hF.status hw
    · intro hx
      split at hx
      · next hq =>
        subst hq
        cases hL.symm.trans hN
        rw [update_self]
        exact hexec hx
      · next hq =>
        rw [update_of_ne (hne hq (.inl (Ctx.owning_of_execs hx)))]
        exact hF.exec hx
    · exact hF.survived
  · obtain ⟨hnone, hst⟩ := h.logged he hp
    refine ⟨by rw [roster_claim, hnone]; rfl, fun st hw => ?_⟩
    have hne : e.pid ≠ L.tgid := by
      intro heq
      rw [heq, hM] at hnone
      contradiction
    rw [update_of_ne hne] at hw
    exact hst st hw

/-- `exit_group_signal` stamps a group that nobody else ends, or that has the signal already. -/
theorem stamp (ho : Owned w.cores) {signo : Nat}
    (hL : w.roster p = some L) (hph : L.phase = .elsewhere)
    (hs : ∀ g, survivor' g = true → survivor g = true ∧ g ≠ L.tgid)
    (hok : signo ≠ 0 → signo ≤ 64 → ∀ q N, w.roster q = some N → N.tgid = L.tgid → q ≠ p →
      N.phase.owning = true → N.phase.execs = false ∧
        ∀ M, w.roster L.tgid = some M → M.termSignal = signo) :
    Judged ((w.map fun M =>
      if (signo ≠ 0 ∧ signo ≤ 64) ∧ M.tgid = L.tgid then { M with termSignal := signo }
      else M).edit p fun L => { L with phase := .stamped signo }) won survivor' := by
  refine .of_fits (fun {q N'} hN' => ?_) fun {e} he hp => ?_
  · obtain ⟨N, hN, hN'⟩ := map_eq_some_iff.mp ((roster_map_edit w w.log _ _ p q).symm.trans hN')
    -- what becomes of a task
    obtain ⟨ht, hown, hz, hx, hp, hsig⟩ : N'.tgid = N.tgid ∧ N'.owner = N.owner ∧
        N'.zombie = N.zombie ∧ N'.exitCode = N.exitCode ∧
        N'.phase = (if q = p then .stamped signo else N.phase) ∧ N'.termSignal =
          if (signo ≠ 0 ∧ signo ≤ 64) ∧ N.tgid = L.tgid then signo else N.termSignal := by
      rw [← hN']
      split_ifs <;> exact ⟨rfl, rfl, rfl, rfl, rfl, rfl⟩
    have hF := h.fits hN
    constructor
    · intro c hc
      rw [hp] at hc
      rw [ht]
      split at hc
      · contradiction
      · exact hF.code hc
    · intro st hw
      obtain ⟨h1, h2, h3, h4⟩ := hF.status hw
      rw [ht, hown, hz, hx, hsig]
      refine ⟨h1, h2, ?_, h4⟩
      split
      · next hst =>
        obtain ⟨⟨hs0, hs64⟩, hNt⟩ := hst
        have hLg : L.tgid = q := hNt.symm.trans h1
        obtain ⟨r, X, hX, hXt, hr, hXo, -⟩ :=
          h.exists_owner ho hL hLg (by rw [hph]; rfl) (by rw [hph]; rfl) hN hw
        have hsame := (hok hs0 hs64 r X hX (hXt.trans hLg.symm) hr hXo).2 N (hLg ▸ hN)
        rw [← h3, hsame]
      · exact h3
    · intro hx
      rw [hp] at hx
      rw [ht, hsig]
      split at hx
      · contradiction
      rename_i hq
      have hex := hF.exec hx
      refine ⟨?_, hex.2⟩
      split
      · next hst =>
        have hno := (hok hst.1.1 hst.1.2 q N hN hst.2 hq (Ctx.owning_of_execs hx)).1
        rw [hx] at hno
        contradiction
      · exact hex.1
    · intro hg ht'
      obtain ⟨hg, hne⟩ := hs q hg
      have hNt : N.tgid = q := ht.symm.trans ht'
      rw [hsig, if_neg (fun hst => hne (hNt.symm.trans hst.2))]
      exact hF.survived hg hNt
  · obtain ⟨hnone, hst⟩ := h.logged he hp
    refine ⟨eq_none_iff_forall_ne_some.mpr fun M' hM' => ?_, hst⟩
    obtain ⟨M, hM, -⟩ := map_eq_some_iff.mp ((roster_map_edit w w.log _ _ p _).symm.trans hM')
    rw [hnone] at hM
    contradiction

/-- An exec is over: `g` is led by a task without a signal, and the rest is as before. -/
theorem takeOver (hw : won g = none)
    (hs : ∀ g', survivor' g' = true → survivor g' = true ∨ g' = g)
    (ht : ∀ q M', w'.roster q = some M' →
      (q = g ∧ M'.tgid = g ∧ M'.phase = .elsewhere ∧ M'.termSignal = 0) ∨
      q ≠ g ∧ ∃ M, w.roster q = some M ∧ M' = { M with ppid := M'.ppid })
    (hstay : ∀ q, w.roster q = none → w'.roster q = none)
    (hl : ∀ e, w'.log.Holds e → e.isProcess = true → w.log.Holds e) :
    Judged w' won survivor' := by
  refine .of_fits (fun {q M'} hM' => ?_) fun {e} he hp => ?_
  · rcases ht q M' hM' with ⟨rfl, -, hp, hsig⟩ | ⟨hne, M, hM, heq⟩
    · exact .fresh hp hw fun _ _ => hsig
    · rw [heq]
      have hF := (h.fits hM).mono fun hq => (hs q hq).resolve_right hne
      exact ⟨hF.code, hF.status, hF.exec, hF.survived⟩
  · obtain ⟨hnone, hst⟩ := h.logged (hl e he hp) hp
    exact ⟨hstay _ hnone, hst⟩

/-- An exec is over under the caller's own pid. -/
theorem takeOver_edit {klocks : Nat → Nat} {f : Life → Life}
    (hf : w.Fair (.takeOver p klocks) (w.edit p f) won won survivor survivor')
    (hL : w.roster p = some L) (hw : won p = none)
    (he : (f L).tgid = p ∧ (f L).phase = .elsewhere ∧ (f L).termSignal = 0) :
    Judged (w.edit p f) won survivor' := by
  refine h.takeOver hw (fun g hg => ?_) (fun q M' hM' => ?_) (fun q hq => ?_) fun e he _ => he
  -- a group survives its exec from this step on, and it is the group of the caller
  · rcases hf.survives g hg with hg | ⟨p', k', L', heq, -, -, hcase⟩
    · exact .inl hg
    obtain ⟨rfl, -⟩ := Action.takeOver.inj heq
    rcases hcase with ⟨rfl, -⟩ | ⟨-, hgone⟩
    · exact .inr rfl
    · rw [edit_roster, if_pos rfl, hL] at hgone
      contradiction
  · rcases edit_eq_some hL hM' with ⟨hq, rfl⟩ | ⟨hq, hM⟩
    · exact .inl ⟨hq, he⟩
    · exact .inr ⟨hq, M', hM, rfl⟩
  · rw [edit_roster]
    split
    · next hqp =>
      rw [← hqp, hq]
      rfl
    · exact hq

theorem fits_of_ne_next (hn : w.Numbered) {q : Nat}
    (hs : survivor' q = true → survivor q = true) (hM : w.roster q = some M) :
    Fits (update won w.next none) survivor' q M := by
  have hF := (h.fits hM).mono hs
  have hg : M.tgid ≠ w.next := hn.fresh.noGroup q M hM
  have hq : q ≠ w.next := (hn.task hM).1.ne
  refine ⟨fun hc => ?_, fun hw => ?_, fun hx => ?_, hF.survived⟩
  · rw [update_of_ne hg]
    exact hF.code hc
  · rw [update_of_ne hq] at hw
    exact hF.status hw
  · rw [update_of_ne hg]
    exact hF.exec hx

/-- A new task. -/
theorem enrol (hn : w.Numbered) (hs : ∀ g, survivor' g = true → survivor g = true) {next : Nat}
    (hp : L.phase = .elsewhere) (hsig : L.termSignal = 0) :
    Judged { w with roster := update w.roster w.next (some L), next := next }
      (update won w.next none) survivor' := by
  refine .of_fits (fun {q M} hM => ?_) fun {e} he hpr => ?_
  · rcases update_eq_some hM with ⟨rfl, hL⟩ | ⟨-, hM⟩
    · cases hL
      exact .fresh hp (update_self ..) fun _ _ => hsig
    · exact h.fits_of_ne_next hn (hs q) hM
  · obtain ⟨hnone, hst⟩ := h.logged he hpr
    have hne : e.pid ≠ w.next := (hn.exits he hpr).1.ne
    dsimp only
    rw [update_of_ne hne, update_of_ne hne]
    exact ⟨hnone, hst⟩

/-- A pid is used up. -/
theorem refuse (hn : w.Numbered) (hs : ∀ g, survivor' g = true → survivor g = true) {next : Nat} :
    Judged { w with next := next } (update won w.next none) survivor' := by
  refine .of_fits (fun {q M} hM => h.fits_of_ne_next hn (hs q) hM) fun {e} he hpr => ?_
  obtain ⟨hnone, hst⟩ := h.logged he hpr
  rw [update_of_ne (hn.exits he hpr).1.ne]
  exact ⟨hnone, hst⟩

end Judged

namespace World

variable {w w' : World} {won won' : Nat → Option ExitStatus} {survivor survivor' : Nat → Bool}

variable {a : Action}

/-- Away from an exec the survivors are the old ones. -/
theorem Fair.keeps_survivors (hf : w.Fair a w' won won' survivor survivor')
    (ha : ∀ p klocks, a ≠ .takeOver p klocks) : ∀ g, survivor' g = true → survivor g = true := by
  intro g hg
  rcases hf.survives g hg with hg | ⟨p, klocks, L, rfl, -⟩
  · exact hg
  · exact absurd rfl (ha p klocks)

/-- An exec that is not over has no survivor yet. -/
theorem Fair.no_survivor (hf : w.Fair a w' won won' survivor survivor')
    (hph : ∀ p L, w.roster p = some L → L.phase = .takingOver →
      ∃ L', w'.roster p = some L' ∧ L'.phase = .takingOver) :
    ∀ g, survivor' g = true → survivor g = true := by
  intro g hg
  rcases hf.survives g hg with hg | ⟨p, klocks, L, -, hL, hp, hcase⟩
  · exact hg
  obtain ⟨L', hL', hp'⟩ := hph p L hL hp
  rcases hcase with ⟨-, L'', hL'', hp''⟩ | ⟨-, hnone⟩
  · cases hL'.symm.trans hL''
    rw [hp'] at hp''
    contradiction
  · rw [hnone] at hL'
    contradiction

/-- A step keeps what the parents were told and will be told in line with the winners. -/
theorem Step.judged (hk : w.Keyed) (hn : w.Numbered) (ho : Owned w.cores)
    (h : Judged w won survivor) (hf : w.Fair a w' won won' survivor survivor')
    (hs : w.Step a w') : Judged w' won' survivor' := by
  -- only claims, stamps and creations change what a run remembers
  have hquiet : a.quiet = true → won' = won := by
    intro ha
    refine hf.keeps ?_ ?_
    · cases a <;> first | rfl | contradiction
    · rintro p c rfl
      contradiction
  cases hs with
  | same ha =>
    obtain rfl := hquiet ha
    exact h.mono (hf.no_survivor fun p L hL hp => ⟨L, hL, hp⟩)
  | @revive _ p L ha hL =>
    obtain rfl := hquiet ha
    refine h.edit (hf.no_survivor fun q M hM hph => ?_) hL ⟨⟨rfl, rfl, rfl⟩, fun _ => id, id, nofun⟩
    rw [edit_roster]
    split
    · next hq =>
      subst hq
      rw [hM]
      exact ⟨_, rfl, hph⟩
    · exact ⟨M, hM, hph⟩
  | @reapSelf p klocks L auto hL hz =>
    obtain rfl := hf.keeps rfl nofun
    -- a zombie has the status that was decided, so that is what it leaves in the log
    refine h.reap (hf.keeps_survivors nofun) hk hL ⟨rfl, rfl⟩ fun st hw hl => ?_
    obtain ⟨-, -, hsig, hcode⟩ := h.status hL hw
    rw [hsig, hcode hz]
  | @stamp _ p signo L hL hph ha =>
    have hwon : won' = won := by
      rcases ha with rfl | ⟨frameOk, rfl⟩ <;> exact hf.keeps rfl nofun
    subst hwon
    obtain ⟨hs, hok⟩ := hf.stamps ha hL ⟨_, by rw [edit_roster, if_pos rfl, map_roster, hL]; rfl, rfl⟩
    exact h.stamp ho hL hph hs hok
  | @claimWon _ p L M code win hL hc hM hown =>
    -- nobody owns the group yet, so no status has been decided
    have hfree : M.owner = 0 := ho.claim_free (cores_of hL) (cores_of hM) hc.starts hown
    have hsurv := hf.keeps_survivors (by
      rintro q klocks rfl
      rcases hc.action with ⟨c, hc, -⟩ | ⟨hc, -⟩ <;> contradiction)
    -- a claim is made to exit, and then the caller's status decides, or for an exec
    rcases hc.action with ⟨c, rfl, c', rfl⟩ | ⟨rfl, rfl⟩
    · obtain ⟨rfl, hsig, hz⟩ := hf.wins hL hc hM hown
      obtain rfl : c' = code := by
        generalize L.phase = x at hc
        cases hc <;> rfl
      refine (h.claim ho hL hM hfree (x := .reparenting _ true) ?_ nofun fun st hst => ?_).mono hsurv
      · exact fun c hc => ⟨_, rfl, Option.some.inj hc⟩
      · cases hst
        exact ⟨hsig, hz⟩
    obtain ⟨rfl, hsig⟩ := hf.execs hL hc hM hown
    have hnone : won' L.tgid = none :=
      eq_none_iff_forall_ne_some.mpr fun st hw => (h.status hM hw).2.1 hfree
    have hclaim := h.claim ho hL hM hfree (x := .dethreading) nofun
      (fun _ => ⟨hsig, rfl⟩) nofun
    rw [← hnone, update_eq_self] at hclaim
    exact hclaim.mono hsurv
  | @claimLost _ p L code win hL hc hown =>
    obtain ⟨rfl, hagree⟩ := hf.loses hL hc hown
    refine h.edit (hf.keeps_survivors ?_) hL ⟨⟨rfl, rfl, rfl⟩, nofun, nofun, fun _ => ?_⟩
    · rintro q klocks rfl
      rcases hc.action with ⟨c, hc, -⟩ | ⟨hc, -⟩ <;> contradiction
    -- a zombie keeps its code; any other leader puts down the one it brought, which agrees
    by_cases hz : L.zombie = true
    · exact .inl ⟨hz, if_pos hz⟩
    refine .inr fun st hw => ?_
    rw [if_neg hz]
    have hl := (h.status hL hw).1
    have hph : L.phase.owning = false ∧ L.phase.ended = false := by
      rcases hc.starts with hph | ⟨signo, hph⟩ <;> rw [hph] <;> exact ⟨rfl, rfl⟩
    obtain ⟨q, N, hN, hNt, hq, -, hd⟩ := h.exists_owner ho hL hl hph.1 hph.2 hL hw
    exact hagree (by simpa using hz) hl q N _ hN hNt hq hd
  | @keepChildren p L first next hL hp =>
    obtain rfl := hf.keeps rfl nofun
    refine h.edit (hf.keeps_survivors nofun) hL
      ⟨⟨rfl, rfl, rfl⟩, ?_, ?_, fun hz => .inl ⟨hz, rfl⟩⟩
    · intro c hc
      cases hp with
      | group code first hph => rw [hph]; exact hc
      | leader => contradiction
    · intro hx
      cases hp <;> contradiction
  | @reparent p L first more next moved hL hp =>
    obtain rfl := hf.keeps rfl nofun
    refine h.frame (hf.keeps_survivors nofun) (fun q M' hM' => ?_) fun e he hpr => .inl ?_
    · rw [roster_map_edit] at hM'
      obtain ⟨M, hM, rfl⟩ := map_eq_some_iff.mp hM'
      by_cases hq : q = p
      · subst hq
        cases hL.symm.trans hM
        refine ⟨L, hL, ?_⟩
        rw [if_pos rfl]
        have hph : (∀ c, (next more).dying = some c → L.phase.dying = some c) ∧
            (next more).execs = false := by
          cases hp with
          | group code first hph => rw [hph]; cases more <;> exact ⟨fun _ => id, rfl⟩
          | leader => cases more <;> exact ⟨nofun, rfl⟩
        have hx : (next more).execs = true → L.phase.execs = true := by
          rw [hph.2]
          nofun
        split <;> exact ⟨⟨rfl, rfl, rfl⟩, hph.1, hx, fun hz => .inl ⟨hz, rfl⟩⟩
      -- the children keep everything but their parent
      · refine ⟨M, hM, ?_⟩
        rw [if_neg hq]
        split <;> exact ⟨⟨rfl, rfl, rfl⟩, fun _ => id, id, fun hz => .inl ⟨hz, rfl⟩⟩
    · dsimp only [edit] at he
      split at he
      · refine .of_refiles (ExitLog.refiles_forEachPending _ _) (fun r => ?_) he hpr
        split <;> exact ⟨rfl, rfl, rfl⟩
      · exact .of_holds he hpr
  | @killMark p q klocks L M code skip next hL hkl hM hg =>
    obtain rfl := hf.keeps rfl nofun
    -- a victim gets the code of its killer, and that is the winner's
    refine h.edit (hf.keeps_survivors nofun) hM ⟨⟨rfl, rfl, rfl⟩, fun _ => id, id, fun _ => ?_⟩
    exact .inr fun st hw => h.kills hL hkl (hg.symm.trans (h.status hM hw).1) hw
  | @killReap p q klocks L M code skip next auto hL hkl hM hg =>
    obtain rfl := hf.keeps rfl nofun
    refine h.reap (hf.keeps_survivors nofun) hk hM ⟨rfl, rfl⟩ fun st hw hl => ?_
    rw [h.kills hL hkl (hg.symm.trans hl) hw]
    rw [(h.status hM hw).2.2.1]
  | @killDone p klocks L code skip next hL hkl =>
    obtain rfl := hf.keeps rfl nofun
    refine h.edit (hf.keeps_survivors nofun) hL
      ⟨⟨rfl, rfl, rfl⟩, ?_, ?_, fun hz => .inl ⟨hz, rfl⟩⟩
    · intro c hc
      cases hkl with
      | group code hph => rw [hph]; exact hc
      | dethread => contradiction
    · intro hx
      cases hkl with
      | group => contradiction
      | dethread hph => rw [hph]; rfl
  | @exit p L c code hL hph =>
    obtain rfl := hf.keeps rfl nofun
    refine h.edit (hf.keeps_survivors nofun) hL
      ⟨⟨rfl, rfl, rfl⟩, ?_, ?_, fun _ => .inr fun st hw => ?_⟩
    · intro c hc
      split at hc <;> contradiction
    · intro hx
      split at hx <;> contradiction
    have hl := (h.status hL hw).1
    -- it exits on its own, with a code that agrees, or after a claim that it won
    rcases hph with ⟨hph, rfl⟩ | hph
    · obtain ⟨q, N, hN, hNt, hq, -, hd⟩ :=
        h.exists_owner ho hL hl (by rw [hph]; rfl) (by rw [hph]; rfl) hL hw
      exact hf.exits rfl hL hl q N _ hN hNt hq hd
    · obtain ⟨st', hw', hc⟩ := h.code hL (by rw [hph]; rfl)
      rw [hl, hw] at hw'
      rw [Option.some.inj hw', hc]
  | @execLeader p klocks L hL hph hl =>
    obtain rfl := hf.keeps rfl nofun
    -- an exec that goes ahead has no fatal signal against it
    obtain ⟨hsig, hnone⟩ := h.exec hL (by rw [hph]; rfl)
    exact h.takeOver_edit hf hL (hl ▸ hnone) ⟨hl, rfl, hsig⟩
  | @promoted p klocks L hL hph hl =>
    obtain rfl := hf.keeps rfl nofun
    obtain ⟨hsig, -⟩ := h.exec hL (by rw [hph]; rfl)
    have hwp : won' p = none :=
      eq_none_iff_forall_ne_some.mpr fun st hw => hl (h.status hL hw).1
    exact h.takeOver_edit hf hL hwp ⟨rfl, rfl, hsig⟩
  | @exchanged p klocks L M rec hL hph hl hM hy hrec =>
    obtain rfl := hf.keeps rfl nofun
    obtain ⟨hsig, hnone⟩ := h.exec hL (by rw [hph]; rfl)
    refine h.takeOver hnone (fun g hg => ?_) (fun q M' hM' => ?_) (fun q hq => ?_)
      fun e he hp => ?_
    · rcases hf.survives g hg with hg | ⟨p', k', L', heq, hL', -, hcase⟩
      · exact .inl hg
      obtain ⟨rfl, -⟩ := Action.takeOver.inj heq
      cases hL.symm.trans hL'
      -- the pid of the caller is gone, so the survivor is the group it took over
      rcases hcase with ⟨-, L'', hL'', -⟩ | ⟨rfl, -⟩
      · simp only [if_true] at hL''
        contradiction
      · exact .inr rfl
    · dsimp only at hM'
      split at hM'
      · contradiction
      split at hM'
      -- the leader from now on: no signal, no status
      · next hq =>
        cases hM'
        exact .inl ⟨hq, rfl, rfl, hsig⟩
      · next hq =>
        obtain ⟨N, hN, rfl⟩ := map_eq_some_iff.mp hM'
        refine .inr ⟨hq, N, hN, ?_⟩
        split <;> rfl
    · dsimp only
      split
      · rfl
      split
      · next hqg =>
        rw [hqg, hM] at hq
        contradiction
      · rw [hq]
        rfl
    · rcases ExitLog.holds_insert he with rfl | he
      · rw [hrec] at hp
        contradiction
      · exact he
  | cloned | spawned =>
    obtain rfl := hf.creates rfl
    exact h.enrol hn (hf.keeps_survivors nofun) rfl rfl
  | refused ha =>
    obtain rfl := hf.creates ha
    refine h.refuse hn (hf.keeps_survivors ?_)
    rintro p klocks rfl
    contradiction
  | @reported p q sel what L M hL hM hl hz =>
    obtain rfl := hf.keeps rfl nofun
    exact h.edit (hf.keeps_survivors nofun) hM
      ⟨⟨rfl, rfl, rfl⟩, fun _ => id, id, fun hz => .inl ⟨hz, rfl⟩⟩
  | consumed i =>
    obtain rfl := hf.keeps rfl nofun
    refine h.frame (hf.keeps_survivors nofun) (fun q M hM => ⟨M, hM, .refl⟩) fun e he hp => .inl ?_
    exact .of_refiles (ExitLog.refiles_consumeZombie w.log i) (fun _ => ⟨rfl, rfl, rfl⟩) he hp
  | consumedSpilled i =>
    obtain rfl := hf.keeps rfl nofun
    refine h.frame (hf.keeps_survivors nofun) (fun q M hM => ⟨M, hM, .refl⟩) fun e he hp => .inl ?_
    exact .of_refiles (ExitLog.refiles_consumeSpilled w.log i) (fun _ => ⟨rfl, rfl, rfl⟩) he hp

end World

/-! ### The scheduler -/

/-- The code a claimant of `exit_group` exits with. -/
def Task.claimCode (t : Task) (code : Int) : Int :=
  match t.ctx with
  | .stamped signo => 128 + signo
  | _ => code

/-- The signal that the delivery pass is about to kill the process with. -/
def Task.fatal (t : Task) : Option Nat :=
  match t.ctx with
  | .dequeued sig action _ _ =>
    if action.handler = 0 ∧ sigdflIgnore.has sig = false ∧ sigdflStop.has sig = false then
      some sig
    else none
  | _ => none

namespace Kernel

/-- If `pid` leads its group, whoever else ends the group does it with `code`. -/
def agrees (k : Kernel) (pid : Nat) (code : Int) : Bool :=
  (k.rq.findPid pid).all fun t => t.tgid != pid ||
    k.rq.slots.all fun u => u.tgid != pid || u.pid == pid || u.ctx.dying.all (· == code)

/-- A stamp with `signo` changes nothing for those who own the exit of the group: none of
them execs, and the leader has the signal. -/
def stampAgrees (k : Kernel) (pid signo : Nat) : Bool :=
  signo == 0 || decide (64 < signo) || (k.rq.findPid pid).all fun t =>
    k.rq.slots.all fun u => u.tgid != t.tgid || u.pid == pid || !u.ctx.owning ||
      (!u.ctx.execs && (k.rq.findPid t.tgid).all (·.termSignal == signo))

/-- The claim of `pid` is won by a caller of `exit_group` only if the leader is marked with
the caller's signal and is not dead with another code, and lost by a leader only with the
code that the group ends with. -/
def claimAgrees (k : Kernel) (pid : Nat) (code : Int) : Bool :=
  (k.rq.findPid pid).all fun t =>
    if (k.rq.claimGroupExit pid).isSome then
      (k.rq.findPid t.tgid).all fun l => l.termSignal == t.ctx.signal &&
        (l.state != .zombie || l.exitCode == t.claimCode code)
    else t.state == .zombie || k.agrees pid (t.claimCode code)

/-- An exec is won only by a thread without a signal. -/
def execAgrees (k : Kernel) (pid : Nat) : Bool :=
  (k.rq.findPid pid).all fun t =>
    if (k.rq.claimGroupExit pid).isSome then t.termSignal == 0
    else t.state == .zombie || k.agrees pid 0

end Kernel

/-- The scheduler, with the status of the winner for each group that was won, and the
groups that came through an exec and were not given a fatal signal since. -/
structure Verdict where
  kernel : Kernel
  won : Nat → Option ExitStatus
  survivor : Nat → Bool

namespace Verdict

def judge (s : Verdict) : Action → Nat → Option ExitStatus
  | .exitGroup pid code =>
    match s.kernel.rq.findPid pid with
    | some t =>
      if (s.kernel.rq.claimGroupExit pid).isSome then
        update s.won t.tgid (some ⟨t.claimCode code, t.ctx.signal⟩)
      else s.won
    | none => s.won
  | .clone _ _ | .spawn => update s.won s.kernel.nextPid none
  | _ => s.won

/-- An exec is over when its caller, under its own pid or under the leader's, is back in
ordinary code. -/
def spare (s : Verdict) (k' : Kernel) : Action → Nat → Bool
  | .exitGroupSignal pid _ | .act pid _ =>
    match s.kernel.rq.findPid pid, k'.rq.findPid pid with
    | some t, some t' =>
      match t'.ctx with
      | .stamped _ => update s.survivor t.tgid false
      | _ => s.survivor
    | _, _ => s.survivor
  | .takeOver pid _ =>
    match s.kernel.rq.findPid pid, k'.rq.findPid pid with
    | some _, some t' =>
      if t'.ctx = .elsewhere then update s.survivor pid true else s.survivor
    | some t, none => update s.survivor t.tgid true
    | none, _ => s.survivor
  | .clone _ _ | .spawn => update s.survivor s.kernel.nextPid false
  | _ => s.survivor

def step (s : Verdict) (a : Action) : Option Verdict :=
  (s.kernel.step a).map fun k' => ⟨k', s.judge a, s.spare k' a⟩

/-- No task has begun to end, and nothing is in the log. -/
structure Init (s : Verdict) : Prop where
  rest : s.kernel.AtRest
  numbered : s.kernel.world.Numbered
  log : s.kernel.exitLog = .new
  won : ∀ g, s.won g = none
  survivor : ∀ g, s.survivor g = false

/-- The steps that leave the status of a group to its winner. -/
def fair (s : Verdict) : Action → Bool
  | .exitGroupSignal pid signo => s.kernel.stampAgrees pid signo
  | .act pid _ => (s.kernel.rq.findPid pid).all fun t => t.fatal.all (s.kernel.stampAgrees pid)
  | .exitGroup pid code => s.kernel.claimAgrees pid code
  | .dethread pid => s.kernel.execAgrees pid
  | .exit pid code => s.kernel.agrees pid code
  | .clone _ _ | .spawn => decide (s.kernel.nextPid + 1 < 2 ^ 32)
  | _ => true

def ok (s : Verdict) (a : Action) : Prop := s.fair a = true

end Verdict

theorem Ctx.coarse_stamped {x : Ctx} {signo : Nat} (h : x.coarse = .stamped signo) :
    x = .stamped signo := by
  cases x <;> first | exact h | contradiction

theorem Claims.code_eq {t : Task} {pid : Nat} {c code : Int} {win : Ctx}
    (h : Claims pid t.ctx.coarse (.exitGroup pid c) code win) : code = t.claimCode c := by
  unfold claimCode
  cases hc : t.ctx <;> rw [hc] at h <;> cases h <;> rfl

namespace Kernel

variable {k k' : Kernel}

variable {pid : Nat} {t : Task}

theorem claimGroupExit_isSome {l : Task} (ht : k.rq.findPid pid = some t)
    (hl : k.rq.findPid t.tgid = some l) :
    (k.rq.claimGroupExit pid).isSome = true ↔ l.groupExitOwner = 0 ∨ l.groupExitOwner = pid := by
  simp only [claimGroupExit, ht, hl]
  by_cases ho : l.groupExitOwner ≠ 0 ∧ l.groupExitOwner ≠ pid
  · simp [ho]
  · rw [if_neg ho]
    simpa [or_iff_not_imp_left] using ho

theorem claim_lost (ht : k.rq.findPid pid = some t)
    (ho : ∀ M, k.world.roster t.life.tgid = some M → M.owner ≠ 0 ∧ M.owner ≠ pid) :
    (k.rq.claimGroupExit pid).isSome = false := by
  by_contra hwin
  rw [Bool.not_eq_false] at hwin
  obtain ⟨rq', hrq⟩ := Option.isSome_iff_exists.mp hwin
  obtain ⟨l, hl, hfree, -⟩ := claimGroupExit_some ht hrq
  obtain ⟨h1, h2⟩ := ho l.life (roster_eq_of_find hl)
  exact hfree.elim h1 h2

theorem Valid.agrees (h : k.Valid) {code : Int}
    (ht : k.rq.findPid pid = some t) (hl : t.tgid = pid) (ha : k.agrees pid code = true) :
    k.world.Agrees pid code := by
  intro q N c hN hNt hq hc
  obtain ⟨u, hu, rfl, rfl⟩ := h.roster_iff.mp hN
  simp only [Kernel.agrees, ht, all_some, hl, bne_self_eq_false, Bool.false_or,
    List.all_eq_true, mem_slots, Bool.or_eq_true, bne_iff_ne, beq_iff_eq] at ha
  rcases ha u hu with (hne | hp) | hd
  · exact absurd hNt hne
  · exact absurd hp hq
  · have hc : u.ctx.dying = some c := (Ctx.coarse_dying u.ctx).1.symm.trans hc
    rw [hc] at hd
    exact (beq_iff_eq.mp hd).symm

/-- A stamp that agrees meets no exec under way, and no owner with another signal. -/
theorem Valid.stampAgrees (h : k.Valid) {signo : Nat}
    (ht : k.rq.findPid pid = some t) (hs : k.stampAgrees pid signo = true) (h0 : signo ≠ 0)
    (h64 : signo ≤ 64) : ∀ q N, k.world.roster q = some N → N.tgid = t.tgid → q ≠ pid →
      N.phase.owning = true → N.phase.execs = false ∧
        ∀ M, k.world.roster t.tgid = some M → M.termSignal = signo := by
  intro q N hN hNt hq ho
  obtain ⟨u, hu, rfl, rfl⟩ := h.roster_iff.mp hN
  simp only [Kernel.stampAgrees, ht, all_some, Bool.or_eq_true, beq_iff_eq, h0, false_or,
    decide_eq_true_eq, not_lt.mpr h64, List.all_eq_true, mem_slots, bne_iff_ne,
    Bool.not_eq_true', Bool.and_eq_true] at hs
  -- a member is in another group, is the caller, owns nothing, or agrees
  rcases hs u hu with ((hne | hp) | hno) | ⟨hx, hl⟩
  · exact absurd hNt hne
  · exact absurd hp hq
  · have ho : u.ctx.owning = true := (Ctx.coarse_owning u.ctx).symm.trans ho
    rw [ho] at hno
    contradiction
  · refine ⟨(Ctx.coarse_dying u.ctx).2.1.trans hx, fun M hM => ?_⟩
    obtain ⟨l, hl', rfl⟩ := map_eq_some_iff.mp hM
    rw [hl'] at hl
    exact beq_iff_eq.mp hl

/-- The delivery pass stamps only for a fatal signal. -/
theorem Valid.act_stamps (h : k.Valid) {signo : Nat} {frameOk : Bool} {t' : Task}
    (ht : k.rq.findPid pid = some t) (hs : k.step (.act pid frameOk) = some k')
    (ht' : k'.rq.findPid pid = some t') (hc : t'.ctx = .stamped signo) : t.fatal = some signo := by
  obtain ⟨t₀, ht₀, hcpu, hs⟩ := thread_eq_some hs
  cases ht.symm.trans ht₀
  -- what the thread is about to do is what the last write to its context says
  have hset : ∀ {rq : RunQueue} {c : Ctx}, rq.Distinct → (rq.setCtx pid c).findPid pid = some t' →
      t'.ctx = c := by
    intro rq c hd hf
    rw [setCtx, findPid_modifyPid hd pid
      (f := fun t => { t with ctx := c }) fun _ => rfl] at hf
    obtain ⟨u, hu, rfl⟩ := map_eq_some_iff.mp hf
    rw [if_pos (findPid_eq_some hu).2]
  split at hs <;> try contradiction
  next sig action oldMask info hctx =>
  cases hs
  simp only [fatal, hctx]
  unfold Kernel.actOn at ht'
  -- Only the default action of a fatal signal stamps: an ignored one, a stop and a handler leave the
  -- thread somewhere else.
  split at ht'
  · next hh =>
    split at ht'
    · have := hset h.distinct ht'
      rw [hc] at this
      contradiction
    · next hi =>
      split at ht'
      · have := hset (h.distinct.of_steady (steady_doSignalStop _ pid sig)) ht'
        rw [hc] at this
        contradiction
      · next hstop =>
        have hd : (k.rq.stampGroup pid sig).Distinct := by
          unfold stampGroup
          split
          · refine h.distinct.mapTasks fun u _ => ?_
            split <;> rfl
          · exact h.distinct
        have := hset hd ht'
        rw [hc] at this
        obtain rfl := Ctx.stamped.inj this
        simp [hh, hi, hstop]
  · split at ht'
    · have := hset h.distinct ht'
      rw [hc] at this
      contradiction
    · have := hset (h.distinct.of_steady (steady_enterHandler _ pid sig action)) ht'
      rw [hc] at this
      split at this <;> contradiction

end Kernel

namespace Verdict

theorem of_update_false {f : Nat → Bool} {n g : Nat} (h : update f n false g = true) :
    f g = true := by
  rw [update_apply] at h
  split at h
  · contradiction
  · exact h

variable {s : Verdict}

theorem spare_stamp {o o' : Option Task} {g : Nat}
    (h : (match o, o' with
      | some t, some t' =>
        match t'.ctx with
        | .stamped _ => update s.survivor t.tgid false
        | _ => s.survivor
      | _, _ => s.survivor) g = true) : s.survivor g = true := by
  cases o with
  | none => exact h
  | some =>
    cases o' with
    | none => exact h
    | some t' =>
      dsimp only at h
      cases hc : t'.ctx <;> rw [hc] at h <;> first | exact h | exact of_update_false h

/-- A step of the scheduler that `fair` allows is fair in the abstract model. -/
theorem fair_step {k' : Kernel} {a : Action} (h : s.kernel.Valid)
    (hok : s.fair a = true) (hs : s.kernel.step a = some k') :
    s.kernel.world.Fair a k'.world s.won (s.judge a) s.survivor (s.spare k' a) := by
  constructor
  · -- a claim that is won
    intro p L M code c hL hc hM ho
    obtain ⟨t, ht, rfl⟩ := map_eq_some_iff.mp hL
    obtain ⟨l, hl, rfl⟩ := map_eq_some_iff.mp hM
    rcases hc.action with ⟨c₀, rfl, -⟩ | ⟨-, hc'⟩
    · have hwin := (claimGroupExit_isSome ht hl).mpr ho
      have hl : s.kernel.rq.findPid t.tgid = some l := hl
      obtain rfl := Claims.code_eq hc
      have hsig : t.life.phase.signal = t.ctx.signal := (Ctx.coarse_dying t.ctx).2.2
      simp only [fair, claimAgrees, ht, hl, hwin, all_some, if_true,
        Bool.and_eq_true, beq_iff_eq, Bool.or_eq_true, bne_iff_ne] at hok
      simp only [judge, ht, hwin, hsig]
      refine ⟨rfl, hok.1, fun hz => ?_⟩
      have hz : l.state = .zombie := by simpa [life] using hz
      exact hok.2.resolve_left fun hne => hne hz
    · contradiction
  · -- an exec that claims
    intro p L M code hL hc hM ho
    obtain ⟨t, ht, rfl⟩ := map_eq_some_iff.mp hL
    obtain ⟨l, hl, rfl⟩ := map_eq_some_iff.mp hM
    rcases hc.action with ⟨c₀, rfl, c', hc'⟩ | ⟨rfl, -⟩
    · contradiction
    · have hwin := (claimGroupExit_isSome ht hl).mpr ho
      simp only [fair, execAgrees, ht, hwin, all_some, if_true, beq_iff_eq] at hok
      exact ⟨rfl, hok⟩
  · -- a claim that is lost, by an exit or by an exec
    intro p L code win hL hc ho
    obtain ⟨t, ht, rfl⟩ := map_eq_some_iff.mp hL
    have hlost := claim_lost ht ho
    have hz : t.life.zombie = false → t.state ≠ .zombie := by simp [life]
    rcases hc.action with ⟨c₀, rfl, -⟩ | ⟨rfl, rfl⟩
    · obtain rfl := Claims.code_eq hc
      simp only [fair, claimAgrees, ht, hlost, all_some, Bool.false_eq_true, if_false,
        Bool.or_eq_true, beq_iff_eq] at hok
      simp only [judge, ht, hlost, Bool.false_eq_true, if_false]
      exact ⟨trivial, fun hnz hl => h.agrees ht hl (hok.resolve_left (hz hnz))⟩
    have hcode : code = 0 := by
      generalize t.life.phase = x at hc
      cases hc
      rfl
    subst hcode
    simp only [fair, execAgrees, ht, hlost, all_some, Bool.false_eq_true, if_false,
      Bool.or_eq_true, beq_iff_eq] at hok
    exact ⟨rfl, fun hnz hl => h.agrees ht hl (hok.resolve_left (hz hnz))⟩
  · rintro p L c rfl hL hl
    obtain ⟨t, ht, rfl⟩ := map_eq_some_iff.mp hL
    exact h.agrees ht hl hok
  · -- a fatal signal: no group with this pid survives it, and the owners agree
    intro p L signo ha hL hL'
    obtain ⟨t, ht, rfl⟩ := map_eq_some_iff.mp hL
    obtain ⟨L', hL', hph⟩ := hL'
    obtain ⟨t', ht', rfl⟩ := map_eq_some_iff.mp hL'
    have hctx := Ctx.coarse_stamped hph
    have hspare : s.spare k' a = update s.survivor t.tgid false := by
      rcases ha with rfl | ⟨f, rfl⟩ <;> simp [spare, ht, ht', hctx]
    refine ⟨fun g hg => ?_, ?_⟩
    · rw [hspare, update_apply] at hg
      split at hg
      · contradiction
      · next hne => exact ⟨hg, hne⟩
    · refine h.stampAgrees ht ?_
      rcases ha with rfl | ⟨f, rfl⟩
      · exact hok
      · have hfatal := h.act_stamps ht hs ht' hctx
        simpa only [fair, ht, all_some, hfatal] using hok
  · intro ha
    cases a <;> first | rfl | contradiction
  · intro ha hne
    cases a with
    | exitGroup p c => exact absurd rfl (hne p c)
    | clone | spawn => contradiction
    | _ => rfl
  · -- an exec that goes ahead, under the pid of the caller or under that of the leader it replaced
    intro g hg
    cases a with
    | takeOver p klocks =>
      obtain ⟨t, ht, -, hs⟩ := thread_eq_some hs
      obtain ⟨hctx, hs⟩ := Option.ite_none_right_eq_some.mp hs
      have hL : s.kernel.world.roster p = some t.life := roster_eq_of_find ht
      have hph : t.life.phase = .takingOver := by simp [life, hctx, Ctx.coarse]
      simp only [spare, ht] at hg
      cases ht' : k'.rq.findPid p with
      | none =>
        simp only [ht', update_apply] at hg
        split at hg
        · next hgt =>
          refine .inr ⟨p, klocks, t.life, rfl, hL, hph, .inr ⟨hgt, ?_⟩⟩
          show (k'.rq.findPid p).map life = none
          rw [ht']
          rfl
        · exact .inl hg
      | some t' =>
        simp only [ht'] at hg
        split at hg
        · next hc =>
          rw [update_apply] at hg
          split at hg
          · next hgp =>
            refine .inr ⟨p, klocks, t.life, rfl, hL, hph, .inl ⟨hgp, t'.life, ?_, ?_⟩⟩
            · exact roster_eq_of_find ht'
            · simp [life, hc, Ctx.coarse]
          · exact .inl hg
        · exact .inl hg
    | exitGroupSignal | act => exact .inl (spare_stamp hg)
    | clone | spawn => exact .inl (of_update_false hg)
    | _ => exact .inl hg

/-- The invariant of a run. -/
structure Inv (s : Verdict) : Prop where
  governed : s.kernel.Governed
  numbered : s.kernel.world.Numbered
  judged : Judged s.kernel.world s.won s.survivor

theorem Init.inv (h : s.Init) : s.Inv := by
  have hrest : ∀ {q L}, s.kernel.world.roster q = some L → L.phase = .elsewhere := by
    intro q L hL
    obtain ⟨t, ht, rfl⟩ := map_eq_some_iff.mp hL
    simp [life, (h.rest.rest t (findPid_eq_some ht).1).1, Ctx.coarse]
  refine ⟨h.rest.governed, h.numbered, .of_fits (fun {q L} hL => ?_) fun {e} he => ?_⟩
  · refine .fresh (hrest hL) (h.won q) fun hg => ?_
    rw [h.survivor q] at hg
    contradiction
  · rw [show s.kernel.world.log = .new from h.log] at he
    exact absurd he (ExitLog.not_holds_new e)

theorem Inv.step {s' : Verdict} {a : Action} (h : s.Inv) (hok : s.fair a = true)
    (hs : s.step a = some s') : s'.Inv := by
  obtain ⟨k', hk', rfl⟩ := map_eq_some_iff.mp hs
  have hv := h.governed.valid
  have hwrap : a.creates = true → s.kernel.world.next + 1 < 2 ^ 32 := by
    cases a <;> first | exact fun _ => of_decide_eq_true hok | nofun
  have hk := s.kernel.keyed_world
  have hnew : a.creates = true → ∀ u ∈ s.kernel.rq, u.pid ≠ s.kernel.nextPid :=
    fun _ u hu => (h.numbered.task (hv.roster_of_mem hu)).1.ne
  obtain ⟨hv', hstep⟩ := refines hv hnew hk'
  exact ⟨⟨hv', hstep.owned hk h.governed.owned fun _ => h.numbered.fresh⟩,
    hstep.numbered hk h.numbered hwrap,
    hstep.judged hk h.numbered h.governed.owned h.judged (fair_step hv hok hk')⟩

/-- **A process ends with the status of the thread that won its exit**, in its exit record and
on its task, and after an exec no old signal is left; in every run whose steps leave the
status of a group to its winner. -/
theorem reported_status_is_winners {s : Verdict} (h : Reachable Init ok step s) :
    (∀ e, s.kernel.exitLog.Holds e → e.isProcess = true →
      ∀ st, s.won e.pid = some st → e.status = st) ∧
    (∀ t ∈ s.kernel.rq, t.isLeader = true → t.state = .zombie →
      ∀ st, s.won t.pid = some st → t.exitStatus = st) ∧
    ∀ t ∈ s.kernel.rq, t.isLeader = true → s.survivor t.pid = true → t.termSignal = 0 := by
  have hinv : s.Inv := h.invariant (fun _ h => h.inv) fun _ _ _ h hok hs => h.step hok hs
  have hv := hinv.governed.valid
  refine ⟨fun e he hp => (hinv.judged.logged he hp).2, fun t ht hl hz st hw => ?_,
    fun t ht hl hs => ?_⟩
  · obtain ⟨-, -, hsig, hcode⟩ := hinv.judged.status (hv.roster_of_mem ht) hw
    have hcode : t.exitCode = st.code := hcode (by simp [life, hz])
    have hsig : t.termSignal = st.termSignal := hsig
    rw [exitStatus, hcode, hsig]
  · exact hinv.judged.survived (hv.roster_of_mem ht) hs (beq_iff_eq.mp hl).symm

theorem init_threeThreads : Init ⟨.threeThreads, fun _ => none, fun _ => false⟩ where
  rest := atRest_threeThreads
  numbered := numbered_of_slots (by decide) (by decide) (by decide +kernel) rfl
  log := rfl
  won := fun _ => rfl
  survivor := fun _ => rfl

/-- Thread 6 ends the group with code 3; that is what the parent is told. -/
theorem reported_status_is_winners_exit : ∃ s, Reachable Init ok step s ∧ s.won 5 = some ⟨3, 0⟩ ∧
      (s.kernel.exitLog.zombies.get? 0).map (fun e => (e.pid, e.isProcess, e.status)) =
        some (5, true, ⟨3, 0⟩) ∧ ∀ e, s.kernel.exitLog.Holds e → e.isProcess = true →
        ∀ st, s.won e.pid = some st → e.status = st := by
  have hrun : Reachable Init ok step _ :=
    ((((((Reachable.start init_threeThreads).next (a := .exitGroup 6 3)
      (by rfl) rfl).next (a := .reparent 6) (by rfl) rfl).next (a := .kill 6 fun _ => 0) (by rfl) rfl).next
      (a := .switchOut 7 0) (by rfl) rfl).next (a := .kill 6 fun _ => 0) (by rfl) rfl).next
      (a := .switchOut 5 0) (by rfl) rfl
  exact ⟨_, hrun, by decide +kernel, by decide +kernel, (reported_status_is_winners hrun).1⟩

/-- Thread 6 has won with `exit_group(3)` when thread 7 is killed by a SIGSEGV: it stamps the
group, then loses. The parent is told of a SIGSEGV that ended nothing. -/
theorem stamp_overrides_winner :
    ∃ s, Reachable Init (fun _ _ => True) step s ∧ s.won 5 = some ⟨3, 0⟩ ∧
      (s.kernel.exitLog.zombies.get? 0).map (fun e => (e.pid, e.isProcess, e.status)) =
        some (5, true, ⟨3, 11⟩) := by
  have hrun : Reachable Init (fun _ _ => True) step _ :=
    (((((((Reachable.start init_threeThreads).next (a := .exitGroup 6 3) trivial rfl).next
      (a := .exitGroupSignal 7 11) trivial rfl).next (a := .exitGroup 7 0) trivial rfl).next
      (a := .switchOut 7 0) trivial rfl).next (a := .reparent 6) trivial rfl).next
      (a := .kill 6 fun _ => 0) trivial rfl).next (a := .switchOut 5 0) trivial rfl
  exact ⟨_, hrun, by decide +kernel, by decide +kernel⟩

end Verdict

end Leandros.Sched
