import Leandros.Sched.Life.Owner

/-!
# Leandros.Sched.Life.GroupExit

**A group in which `exit_group` was called ends.** A thread that loses the claim dies
alone and leaves the rest to the owner, so there has to be one: with a leader on the queue
there is, since the record names it. Once the leader is gone there is no record, and every
claim is lost (`claim_group_exit` answers `AlreadyDying` for a missing leader).

An owner is not always one that ends the group: `dethread_current_group` claims it too, for
an exec, and gives it back. A call of `exit_group` that loses to an exec ends its own thread
and no other, and the process lives on in the new image.

* `Ending` — the scheduler with the groups in which `exit_group` was called, by any thread and
  with any outcome. A fatal signal counts: `exit_group_signal` ends in `exit_group`.
* `Ending.ok` — no claim without a leader or an owner to lose to, no `exit_group` under an exec.
* `Ends` — what is kept for such a group: a thread tears it down, or all its threads are dead.
* `Step.ends` — each kind of step of the scheduler keeps it.
* `exit_group_ends_whole`, `exit_group_without_leader` — the runs that meet the condition, and
  one that does not.
-/

namespace Leandros.Sched

open Function (update update_apply update_of_ne update_self)
open Life
open Owned
open Kernel

/-- The thread is ending its group, or alone in it and about to exit. -/
def Ctx.tearing : Ctx → Bool
  | .reparenting _ _ | .killing _ | .exiting _ => true
  | _ => false

theorem Ctx.tearing_cases {x : Ctx} (h : x.tearing = true) :
    x.owning = true ∨ ∃ code, x = .exiting code := by
  cases x with
  | reparenting | killing => exact .inl rfl
  | exiting code => exact .inr ⟨code, rfl⟩
  | _ => contradiction

theorem Ctx.owning_of_gone {x : Ctx} (h : x.gone = true) : x.owning = false := by
  cases x <;> first | contradiction | rfl

/-- A group in which `exit_group` was called is being ended, or its threads are dead. -/
structure Ends (c : Nat → Option Core) (ended : Nat → Bool) : Prop where
  fate : ∀ g, ended g = true → (∃ p L, c p = some L ∧ L.tgid = g ∧ L.phase.tearing = true) ∨
      ∀ q N, c q = some N → N.tgid = g → N.zombie = true ∧ N.phase.gone = true
  names : ∀ g N, ended g = true → c g = some N → N.tgid = g

namespace Ends

variable {c : Nat → Option Core} {ended : Nat → Bool}

variable {p : Nat} {L : Core}

variable (h : Ends c ended)
include h

/-- One life changes, in a group that stays as torn down as it was. -/
theorem set {L' : Core} (hL : c p = some L) (ht : L'.tgid = L.tgid)
    (htear : L.phase.tearing = true → L'.phase.tearing = true ∨
      (L'.zombie = true ∧ L'.phase.gone = true) ∧ Alone c p L)
    (hdead : (∀ q N, c q = some N → N.tgid = L.tgid → N.zombie = true ∧ N.phase.gone = true) →
      L'.zombie = true ∧ L'.phase.gone = true) : Ends (update c p (some L')) ended := by
  constructor
  · intro g hg
    rcases h.fate g hg with ⟨q, N, hN, hNt, hNp⟩ | hall
    -- the thread that tears the group down is the one that moves, or it is left alone
    · by_cases hq : q = p
      · subst hq
        cases hL.symm.trans hN
        rcases htear hNp with hp | ⟨hd, hal⟩
        · exact .inl ⟨q, L', update_self .., ht.trans hNt, hp⟩
        -- it was alone and ends: nobody else is left to be dead
        refine .inr fun r X hX hXt => ?_
        rcases update_eq_some hX with ⟨-, hX⟩ | ⟨hr, hX⟩
        · cases hX
          exact hd
        · exact absurd (hal r X hX (hXt.trans hNt.symm)) hr
      · exact .inl ⟨q, N, by rw [update_of_ne hq]; exact hN, hNt, hNp⟩
    · -- all were dead before, and the one that moves stays dead
      refine .inr fun r X hX hXt => ?_
      rcases update_eq_some hX with ⟨-, hX⟩ | ⟨-, hX⟩
      · cases hX
        exact hdead fun q N hN hNt => hall q N hN (hNt.trans (ht.symm.trans hXt))
      · exact hall r X hX hXt
  · intro g N hg hN
    rcases update_eq_some hN with ⟨hq, hN⟩ | ⟨-, hN⟩
    · cases hN
      rw [ht]
      exact h.names g L hg (hq ▸ hL)
    · exact h.names g N hg hN

/-- Entries go, and at most one thread is fresh, in a group that lives on. -/
theorem renew {c' : Nat → Option Core} {ended' : Nat → Bool} {n g : Nat}
    (back : ∀ {q N}, c' q = some N → (q = n ∧ N = .fresh g) ∨ c q = some N)
    (hend : ∀ {g'}, ended' g' = true → ended g' = true)
    (hnew : c' n = some (.fresh g) → ended' n = false ∧
      (ended' g = true → ∃ p L, c p = some L ∧ L.tgid = g ∧ L.phase.gone = false))
    (htear : ∀ {q N}, c q = some N → ended' N.tgid = true → N.phase.tearing = true →
      c' q = some N) : Ends c' ended' := by
  constructor
  · intro g' hg'
    rcases h.fate g' (hend hg') with ⟨q, N, hN, rfl, hNp⟩ | hall
    -- whoever tears a group down survives the step
    · exact .inl ⟨q, N, htear hN hg' hNp, rfl, hNp⟩
    refine .inr fun q N hN hNt => ?_
    rcases back hN with ⟨rfl, rfl⟩ | hN'
    -- a new thread in a group of dead ones: its parent is not dead
    · subst hNt
      obtain ⟨p, L, hL, hLt, hLg⟩ := (hnew hN).2 hg'
      have hd := (hall p L hL hLt).2
      rw [hLg] at hd
      contradiction
    · exact hall q N hN' hNt
  · intro g' N hg' hN
    rcases back hN with ⟨rfl, rfl⟩ | hN'
    · rw [(hnew hN).1] at hg'
      contradiction
    · exact h.names g' N (hend hg') hN'

theorem remove (hL : c p = some L)
    (hp : L.phase.tearing = false) : Ends (update c p none) ended := by
  refine h.renew (n := p) (g := p) (fun hN => ?_) id (fun hp => ?_) fun {q N} hN _ hNp => ?_
  · exact .inr ((update_eq_some hN).resolve_left fun hq => nomatch hq.2).2
  · rw [update_self] at hp
    contradiction
  · rw [update_of_ne]
    · exact hN
    rintro rfl
    cases hL.symm.trans hN
    rw [hp] at hNp
    contradiction

/-- A claim by a thread that is not about to end. -/
theorem claim (won : Ctx) (hL : c p = some L)
    (hp : L.phase.tearing = false) (hg : L.phase.gone = false) :
    Ends (fun q => (c q).map (claimed L.tgid p won q)) ended := by
  constructor
  · intro g hgend
    rcases h.fate g hgend with ⟨q, N, hN, hNt, hNp⟩ | hall
    · refine .inl ⟨q, claimed L.tgid p won q N, by rw [hN]; rfl, hNt, ?_⟩
      -- the claimant was tearing nothing down
      rw [claimed, if_neg]
      · exact hNp
      rintro rfl
      cases hL.symm.trans hN
      rw [hp] at hNp
      contradiction
    · refine .inr fun q N' hN' hNt => ?_
      obtain ⟨N, hN, rfl⟩ := Option.map_eq_some_iff.mp hN'
      have hd := hall q N hN hNt
      refine ⟨hd.1, ?_⟩
      -- the claimant is not dead, so its group was not a dead one
      rw [claimed, if_neg]
      · exact hd.2
      rintro rfl
      cases hL.symm.trans hN
      rw [hg] at hd
      cases hd.2
  · intro g N' hgend hN'
    obtain ⟨N, hN, rfl⟩ := Option.map_eq_some_iff.mp hN'
    exact h.names g N hgend hN

/-- Another group has been called to its end. -/
theorem insert {g : Nat} (hfate : ∃ p L, c p = some L ∧ L.tgid = g ∧ L.phase.tearing = true)
    (hname : ∀ N, c g = some N → N.tgid = g) : Ends c (update ended g true) := by
  constructor
  · intro g' hg'
    by_cases hgg : g' = g
    · subst hgg
      exact .inl hfate
    · rw [update_of_ne hgg] at hg'
      exact h.fate g' hg'
  · intro g' N hg' hN
    by_cases hgg : g' = g
    · subst hgg
      exact hname N hN
    · rw [update_of_ne hgg] at hg'
      exact h.names g' N hg' hN

theorem clear (g : Nat) : Ends c (update ended g false) := by
  have back : ∀ {g'}, update ended g false g' = true → ended g' = true := by
    intro g' hg'
    rw [update_apply] at hg'
    split at hg'
    · contradiction
    · exact hg'
  exact ⟨fun g' hg' => h.fate g' (back hg'), fun g' N hg' => h.names g' N (back hg')⟩

/-- The end of an exec. -/
theorem takeOver (ho : Owned c) {g : Nat} (hL : c p = some L) (hp : L.phase = .takingOver)
    (hg : (g = L.tgid ∧ ∃ M, c L.tgid = some M) ∨ (g = p ∧ c L.tgid = none)) :
    Ends (update (update c p none) g (some (.fresh g))) ended := by
  have hown : L.phase.owning = true := by rw [hp]; rfl
  -- the group it takes over was not called to its end
  have hnot : ended L.tgid = false := by
    by_contra hend
    rcases h.fate L.tgid (by simpa using hend) with ⟨q, N, hN, hNt, hNp⟩ | hall
    · have hqp : p = q := by
        rcases Ctx.tearing_cases hNp with hNo | ⟨code, hph⟩
        · exact ho.unique hL hN hown hNo hNt.symm
        · exact ho.alone hN hph p L hL hNt.symm
      subst hqp
      cases hL.symm.trans hN
      rw [hp] at hNp
      contradiction
    · have hd := (hall p L hL rfl).2
      rw [hp] at hd
      contradiction
  have hnotg : ended g = false := by
    rcases hg with ⟨rfl, -⟩ | ⟨rfl, hnone⟩
    · exact hnot
    by_contra hend
    have hl := h.names g L (by simpa using hend) hL
    rw [hl, hL] at hnone
    contradiction
  refine h.renew (fun hN => (takeOver_eq_some hN).imp_right And.right) id
    (fun _ => ⟨hnotg, fun hg' => ?_⟩) fun {q N} hN hNe _ => ?_
  · rw [hnotg] at hg'
    contradiction
  have hne : N.tgid ≠ L.tgid := by
    intro ht
    rw [ht, hnot] at hNe
    contradiction
  rw [update_of_ne, update_of_ne]
  · exact hN
  · rintro rfl
    cases hL.symm.trans hN
    exact hne rfl
  · rintro rfl
    rcases hg with ⟨rfl, -⟩ | ⟨rfl, -⟩
    · exact hne (ho.lead hL hN)
    · cases hL.symm.trans hN
      exact hne rfl

/-- A new task: its pid names no group that was called to its end. -/
theorem create {n g : Nat} (hn : c n = none)
    (hg : g = n ∨ ∃ p L, c p = some L ∧ L.tgid = g ∧ L.phase.gone = false) :
    Ends (update c n (some (.fresh g))) (update ended n false) := by
  -- a new group has not ended; a new thread joins one with a thread that is not dead
  refine h.renew (g := g) (fun hN => ?_) (fun hg' => ?_)
    (fun _ => ⟨update_self .., fun hg' => ?_⟩) fun {q N} hN _ _ => ?_
  · exact (update_eq_some hN).imp (fun hq => ⟨hq.1, (Option.some.inj hq.2).symm⟩) And.right
  · rw [update_apply] at hg'
    split at hg'
    · contradiction
    · exact hg'
  · refine hg.resolve_left ?_
    rintro rfl
    rw [update_self] at hg'
    contradiction
  · rw [update_of_ne]
    · exact hN
    · rintro rfl
      rw [hn] at hN
      contradiction

end Ends

/-! ### Steps -/

namespace World

variable {w w' : World} {ended ended' : Nat → Bool}

/-- What a step does to the groups that were called to their end. -/
def Marks (w : World) (ended ended' : Nat → Bool) : Action → Prop
  | .exitGroup p _ => ∀ L, w.roster p = some L → ended' = update ended L.tgid true
  | .clone _ _ | .spawn => ended' = update ended w.next false
  | _ => ended' = ended

theorem Marks.of_quiet {a : Action} (h : w.Marks ended ended' a) (ha : a.quiet = true) :
    ended' = ended := by
  cases a <;> first | exact h | contradiction

/-- The group of `p` has a leader, or somebody who ends it. -/
def Led (w : World) (p : Nat) : Prop :=
  ∀ L, w.roster p = some L → (∃ M, w.roster L.tgid = some M) ∨
    ∃ q N, w.roster q = some N ∧ N.tgid = L.tgid ∧ q ≠ p ∧ N.phase.owning = true

/-- No thread of the group of `p` execs. -/
def Unexec (w : World) (p : Nat) : Prop :=
  ∀ L, w.roster p = some L → ∀ q N, w.roster q = some N → N.tgid = L.tgid →
    N.phase ≠ .dethreading ∧ N.phase ≠ .takingOver

variable {L : Life}

/-- A claim by a thread of a led group is lost only to a living owner at work. -/
theorem Led.owner (h : Owned w.cores) {p : Nat} (hled : w.Led p) (hL : w.roster p = some L)
    (ho : ∀ M, w.roster L.tgid = some M → M.owner ≠ 0 ∧ M.owner ≠ p) :
    ∃ q N, w.roster q = some N ∧ N.tgid = L.tgid ∧ q ≠ p ∧ N.phase.owning = true ∧
      N.zombie = false ∧ ∀ M, w.roster L.tgid = some M → M.owner = q := by
  -- the claim was lost to somebody: the owner on record, or the owner that `Led` promises
  have hex : ∃ q N, w.roster q = some N ∧ N.tgid = L.tgid ∧ q ≠ p ∧ N.phase.owning = true := by
    rcases hled L hL with ⟨M, hM⟩ | hex
    · obtain ⟨h0, hne⟩ := ho M hM
      obtain ⟨X, hX, hXt, hcase⟩ := h.owner (cores_of hM) h0
      obtain ⟨N, hN, rfl⟩ := cores_eq_some hX
      refine ⟨M.owner, N, hN, hXt, hne, ?_⟩
      -- the record may be stale only if its owner was alone, and `p` is in the group too
      rcases hcase with hcase | ⟨-, hal⟩
      · exact hcase
      · exact absurd (hal p L.core (cores_of hL) rfl).symm hne
    · exact hex
  obtain ⟨q, N, hN, hNt, hq, hNo⟩ := hex
  refine ⟨q, N, hN, hNt, hq, hNo, h.alive (cores_of hN) (.inl hNo), fun M hM => ?_⟩
  have hM' : w.cores N.core.tgid = some M.core := by
    rw [core_tgid, hNt]
    exact cores_of hM
  exact h.holds (cores_of hN) hNo hM'

theorem ends_edit (h : Ends w.cores ended) {p : Nat} {f : Life → Life}
    (hL : w.roster p = some L) (ht : (f L).tgid = L.tgid)
    (htear : L.phase.tearing = true → (f L).phase.tearing = true ∨
      ((f L).zombie = true ∧ (f L).phase.gone = true) ∧ Alone w.cores p L.core)
    (hdead : L.zombie = true → L.phase.gone = true →
      (f L).zombie = true ∧ (f L).phase.gone = true) : Ends (w.edit p f).cores ended := by
  rw [cores_edit hL]
  refine h.set (cores_of hL) ht htear fun hall => ?_
  obtain ⟨hz, hg⟩ := hall p L.core (cores_of hL) rfl
  exact hdead hz hg

/-- A pass over the children does not interrupt the end of a group. -/
theorem ends_pass {first : Bool} {next : Bool → Ctx} (more : Bool) (hp : Passes L first next) :
    (L.phase.tearing = true → (next more).tearing = true) ∧
      (L.phase.gone = true → (next more).gone = true) := by
  cases hp with
  | group code first hph =>
    rw [hph]
    exact ⟨fun _ => by cases more <;> rfl, nofun⟩
  | leader first hph =>
    rw [hph]
    exact ⟨nofun, fun _ => by cases more <;> rfl⟩

/-- A step keeps `Ends`, with the groups that it ends marked. -/
theorem Step.ends {a : Action} (hk : w.Keyed) (ho : Owned w.cores) (h : Ends w.cores ended)
    (hnew : a.creates = true → w.Fresh) (hmark : w.Marks ended ended' a)
    (hled : ∀ p code, a = .exitGroup p code → w.Led p ∧ w.Unexec p) (hs : w.Step a w') :
    Ends w'.cores ended' := by
  cases hs with
  | same ha =>
    obtain rfl := hmark.of_quiet ha
    exact h
  | @revive _ p L ha hL hp =>
    obtain rfl := hmark.of_quiet ha
    rw [cores_edit hL]
    refine h.set (cores_of hL) rfl .inl fun hall => ?_
    -- a dead thread of a dead group does not come back: nobody is left who marked it
    obtain ⟨-, hg⟩ := hall p L.core (cores_of hL) rfl
    have hg : L.phase.gone = true := hg
    rcases hp with hp | hp
    · cases hph : L.phase <;> rw [hph] at hp hg <;> contradiction
    · obtain ⟨x, X, hX, hXt, -, hXo, -⟩ := ho.exists_owner (cores_of hL) hp
      rw [Ctx.owning_of_gone (hall x X hX hXt).2] at hXo
      contradiction
  | @reapSelf p klocks L auto hL hz =>
    obtain rfl := hmark
    rw [cores_reap, hk p L hL]
    refine h.remove (cores_of hL) ?_
    by_contra htear
    have hz' : L.zombie = false :=
      ho.alive (cores_of hL) (Ctx.tearing_cases (by simpa using htear))
    rw [hz] at hz'
    contradiction
  | @stamp _ p signo L hL hph ha =>
    have hend : ended' = ended := by
      rcases ha with rfl | ⟨frameOk, rfl⟩ <;> exact hmark
    subst hend
    refine (congrArg (Ends · ended') (cores_map_edit rfl hL fun M => ?_)).mpr
      (h.set (cores_of hL) rfl (fun htear => ?_) fun hall => ?_)
    · split <;> rfl
    · rw [core_phase, hph] at htear
      contradiction
    · have hg := (hall p L.core (cores_of hL) rfl).2
      rw [core_phase, hph] at hg
      contradiction
  | @claimWon _ p L M code won hL hc hM =>
    have hph : L.phase.tearing = false ∧ L.phase.gone = false := by
      rcases hc.starts with hph | ⟨signo, hph⟩ <;> rw [hph] <;> exact ⟨rfl, rfl⟩
    have hclaim := h.claim won (cores_of hL) hph.1 hph.2
    rw [cores_claim hL hM]
    rcases hc.action with ⟨c, rfl, c', rfl⟩ | ⟨rfl, rfl⟩
    · obtain rfl := hmark L hL
      -- it is the claimant that ends the group
      refine hclaim.insert ⟨p, claimed L.tgid p (.reparenting c' true) p L.core, ?_, rfl, ?_⟩ ?_
      · rw [cores_of hL]
        rfl
      · rw [claimed, if_pos rfl]
        rfl
      · intro N' hN'
        obtain ⟨N, hN, rfl⟩ := Option.map_eq_some_iff.mp hN'
        have ht : N.tgid = L.core.tgid := ho.lead (cores_of hL) hN
        exact ht
    · obtain rfl := hmark
      exact hclaim
  | @claimLost _ p L code won hL hc hown =>
    have hph : L.phase.tearing = false := by
      rcases hc.starts with hph | ⟨signo, hph⟩ <;> rw [hph] <;> rfl
    have hends : Ends w.cores ended' := by
      rcases hc.action with ⟨c, rfl, c', rfl⟩ | ⟨rfl, rfl⟩
      · obtain rfl := hmark L hL
        -- the owner that the claim was lost to does not exec, so it ends the group
        obtain ⟨hled, hexec⟩ := hled p c rfl
        obtain ⟨q, N, hN, hNt, -, hNo, -⟩ := hled.owner ho hL hown
        refine h.insert ⟨q, N.core, cores_of hN, hNt, ?_⟩ fun M hM => ?_
        · obtain ⟨h1, h2⟩ := hexec L hL q N hN hNt
          rw [core_phase]
          cases hph : N.phase <;> rw [hph] at hNo h1 h2 <;> first | rfl | contradiction
        · exact ho.lead (cores_of hL) hM
      · obtain rfl := hmark
        exact h
    refine ends_edit hends hL rfl (fun htear => ?_) fun _ _ => ⟨rfl, rfl⟩
    rw [hph] at htear
    contradiction
  | @keepChildren p L first next hL hp =>
    obtain rfl := hmark
    have hpass := ends_pass false hp
    exact ends_edit h hL rfl (fun htear => .inl (hpass.1 htear)) fun hz hg => ⟨hz, hpass.2 hg⟩
  | @reparent p L first more next moved hL hp =>
    obtain rfl := hmark
    have hpass := ends_pass more hp
    refine (congrArg (Ends · ended') (cores_map_edit rfl hL fun M => ?_)).mpr
      (h.set (cores_of hL) rfl (fun htear => .inl (hpass.1 htear)) fun hdead => ?_)
    · split <;> rfl
    · exact (hdead p L.core (cores_of hL) rfl).imp_right hpass.2
  | @killMark p q klocks L M code skip next hL hkl hM hg =>
    obtain rfl := hmark
    exact ends_edit h hM rfl .inl fun _ hg => ⟨rfl, hg⟩
  | @killReap p q klocks L M code skip next auto hL hkl hM hg hp =>
    obtain rfl := hmark
    obtain ⟨hno, hex, -⟩ := owned_victim ho hL hkl.owning hM hg hp
    rw [cores_reap, show M.pid = q from hk q M hM]
    refine h.remove (cores_of hM) ?_
    by_contra htear
    rcases Ctx.tearing_cases (by simpa using htear) with hMo | ⟨c, hph⟩
    · rw [hno] at hMo
      contradiction
    · exact hex c hph
  | @killDone p klocks L code skip next hL hkl =>
    obtain rfl := hmark
    refine ends_edit h hL rfl (fun htear => .inl ?_) fun hz hg => ?_
    · cases hkl with
      | group => rfl
      | dethread hph => rw [hph] at htear; contradiction
    · have hown := hkl.owning
      rw [Ctx.owning_of_gone hg] at hown
      contradiction
  | @exit p L c code hL hph =>
    obtain rfl := hmark
    have hgone : (if L.pid = L.tgid then Ctx.leaving true else .left).gone = true := by
      split <;> rfl
    refine ends_edit h hL rfl (fun htear => .inr ⟨⟨rfl, hgone⟩, ?_⟩) fun _ _ => ⟨rfl, hgone⟩
    rcases hph with ⟨hph, -⟩ | hph
    · rw [hph] at htear
      contradiction
    · exact ho.alone (cores_of hL) hph
  | @execLeader p klocks L hL hph hl =>
    obtain rfl := hmark
    rw [cores_leads ho hL hph (by rw [← hl]; rfl)]
    exact h.takeOver ho (cores_of hL) hph
      (.inl ⟨hl.symm, L.core, by rw [core_tgid, hl]; exact cores_of hL⟩)
  | @promoted p klocks L hL hph hl hnone =>
    obtain rfl := hmark
    rw [cores_leads ho hL hph rfl]
    exact h.takeOver ho (cores_of hL) hph
      (.inr ⟨rfl, by rw [core_tgid, cores, hnone]; rfl⟩)
  | @exchanged p klocks L M rec hL hph hl hM =>
    obtain rfl := hmark
    rw [cores_exchanged ho hL hph hl]
    exact h.takeOver ho (cores_of hL) hph (.inl ⟨rfl, _, cores_of hM⟩)
  | @cloned p L thread hL hph =>
    obtain rfl := hmark
    obtain ⟨-, hnone, -⟩ := hnew rfl
    have hcr := h.create (g := (w.child L thread).tgid) (by rw [cores, hnone]; rfl) ?_
    · exact cores_enrol w _ _ ▸ hcr
    · cases thread with
      | false => exact .inl rfl
      | true => exact .inr ⟨p, L.core, cores_of hL, rfl, by rw [core_phase, hph]; rfl⟩
  | spawned =>
    obtain rfl := hmark
    obtain ⟨-, hnone, -⟩ := hnew rfl
    have hcr := h.create (by rw [cores, hnone]; rfl) (.inl rfl)
    exact cores_enrol w _ _ ▸ hcr
  | refused =>
    have hend : ended' = update ended w.next false := by
      cases a <;> first | exact hmark | contradiction
    subst hend
    exact h.clear w.next
  | @reported p q sel what L M hL hM hl hz =>
    obtain rfl := hmark
    exact ends_edit h hM rfl .inl fun hz hg => ⟨hz, hg⟩
  | consumed | consumedSpilled =>
    obtain rfl := hmark
    exact h

end World

/-! ### The scheduler -/

namespace Kernel

/-- Some thread of the group of `pid` execs. -/
def execs (k : Kernel) (pid : Nat) : Bool :=
  match k.rq.findPid pid with
  | some t =>
    k.rq.slots.any fun u => u.tgid == t.tgid && (u.ctx == .dethreading || u.ctx == .takingOver)
  | none => false

/-- The group of `pid` has its leader on the queue, or another thread that ends it. -/
def led (k : Kernel) (pid : Nat) : Bool :=
  match k.rq.findPid pid with
  | some t =>
    (k.rq.findPid t.tgid).isSome ||
      k.rq.slots.any fun u => u.tgid == t.tgid && u.pid != pid && u.ctx.owning
  | none => true

variable {k : Kernel}

theorem Valid.led (h : k.Valid) {pid : Nat} (hled : k.led pid = true) : k.world.Led pid := by
  intro L hL
  obtain ⟨t, ht, rfl, rfl⟩ := h.roster_iff.mp hL
  rw [Kernel.led, h.distinct.findPid ht] at hled
  simp only [Bool.or_eq_true, List.any_eq_true, RunQueue.mem_slots, Bool.and_eq_true, beq_iff_eq,
    bne_iff_ne] at hled
  rcases hled with hl | ⟨u, hu, ⟨hut, hup⟩, huo⟩
  · obtain ⟨l, hl⟩ := Option.isSome_iff_exists.mp hl
    exact .inl ⟨l.life, roster_eq_of_find hl⟩
  · refine .inr ⟨u.pid, u.life, h.roster_of_mem hu, hut, hup, ?_⟩
    exact (Ctx.coarse_owning u.ctx).trans huo

theorem Valid.unexec (h : k.Valid) {pid : Nat} (hexec : k.execs pid = false) :
    k.world.Unexec pid := by
  intro L hL q N hN hNt
  obtain ⟨t, ht, rfl, rfl⟩ := h.roster_iff.mp hL
  obtain ⟨u, hu, -, rfl⟩ := h.roster_iff.mp hN
  rw [Kernel.execs, h.distinct.findPid ht, List.any_eq_false] at hexec
  have hno : ¬(u.ctx = .dethreading ∨ u.ctx = .takingOver) := by
    have hut : u.tgid = t.tgid := hNt
    simpa [hut] using hexec u (RunQueue.mem_slots.mpr hu)
  simp only [Task.life]
  cases hc : u.ctx <;> rw [hc] at hno <;> simp [Ctx.coarse] at hno ⊢

end Kernel

/-- The scheduler, and the groups in which `exit_group` was called. -/
structure Ending where
  kernel : Kernel
  ended : Nat → Bool

namespace Ending

/-- Every call counts; the pid of a new task stands for a new group. -/
def mark (s : Ending) : Action → Nat → Bool
  | .exitGroup pid _ =>
    match s.kernel.rq.findPid pid with
    | some t => update s.ended t.tgid true
    | none => s.ended
  | .clone _ _ | .spawn => update s.ended s.kernel.nextPid false
  | _ => s.ended

def step (s : Ending) (a : Action) : Option Ending :=
  (s.kernel.step a).map fun k => ⟨k, s.mark a⟩

def init (s : Ending) : Prop := s.kernel.AtRest ∧ ∀ g, s.ended g = false

/-- Who claims the exit of a group has a leader or an owner to lose to, and does not call
`exit_group` while a thread of the group execs; new pids are new. -/
def ok (s : Ending) : Action → Prop
  | .exitGroup pid _ => s.kernel.led pid = true ∧ s.kernel.execs pid = false
  | .dethread pid => s.kernel.led pid = true
  | .clone _ _ | .spawn => s.kernel.freshPid = true
  | _ => True

/-- What ends a group ends all of it. -/
structure EndsWhole (s : Ending) : Prop where
  /-- A claim is lost only to another live thread of the group, on record as the owner. -/
  lost : ∀ p t, s.kernel.rq.findPid p = some t → s.kernel.led p = true →
    s.kernel.rq.claimGroupExit p = none →
    ∃ u ∈ s.kernel.rq, u.tgid = t.tgid ∧ u.pid ≠ p ∧ u.state ≠ .zombie ∧ u.ctx.owning = true ∧
      ∀ l, s.kernel.rq.findPid t.tgid = some l → l.groupExitOwner = u.pid
  /-- While nobody ends a group in which `exit_group` was called, none of its threads lives. -/
  whole : ∀ g, s.ended g = true → (∃ u ∈ s.kernel.rq, u.tgid = g ∧ u.ctx.tearing = true) ∨
      ∀ u ∈ s.kernel.rq, u.tgid = g → u.state = .zombie
  one : ∀ u ∈ s.kernel.rq, ∀ v ∈ s.kernel.rq, u.ctx.owning = true → v.ctx.owning = true →
    u.tgid = v.tgid → u = v

/-- The invariant of a run. -/
structure Inv (s : Ending) : Prop where
  governed : s.kernel.Governed
  ends : Ends s.kernel.world.cores s.ended

variable {s : Ending}

theorem marks_mark (h : s.kernel.Valid) (a : Action) :
    s.kernel.world.Marks s.ended (s.mark a) a := by
  cases a with
  | exitGroup =>
    intro L hL
    obtain ⟨t, ht, rfl, rfl⟩ := h.roster_iff.mp hL
    rw [mark, h.distinct.findPid ht]
    rfl
  | _ => rfl

theorem Inv.step {s' : Ending} {a : Action} (h : s.Inv) (hok : s.ok a)
    (hs : s.step a = some s') : s'.Inv := by
  obtain ⟨k', hk', rfl⟩ := Option.map_eq_some_iff.mp hs
  have hf : a.creates = true → s.kernel.freshPid = true := by
    cases a <;> first | exact fun _ => hok | nofun
  obtain ⟨hg, hstep⟩ := h.governed.step hf hk'
  refine ⟨hg, ?_⟩
  refine hstep.ends s.kernel.keyed_world h.governed.owned h.ends
    (fun ha => h.governed.valid.fresh (hf ha)) (marks_mark h.governed.valid a) ?_
  rintro p code rfl
  exact ⟨h.governed.valid.led hok.1, h.governed.valid.unexec hok.2⟩

/-- What the invariant says of whole groups. -/
theorem Inv.endsWhole (h : s.Inv) : s.EndsWhole := by
  obtain ⟨⟨hv, ho⟩, he⟩ := h
  constructor
  · -- a claim that is lost is lost to a live owner of the group
    intro p t ht hled hclaim
    have hL : s.kernel.world.roster p = some t.life := roster_eq_of_find ht
    have hown : ∀ M, s.kernel.world.roster t.life.tgid = some M → M.owner ≠ 0 ∧ M.owner ≠ p := by
      intro M hM
      obtain ⟨l, hl, rfl⟩ := Option.map_eq_some_iff.mp hM
      exact claimGroupExit_none ht hclaim l hl
    obtain ⟨q, N, hN, hNt, hq, hNo, hNz, hrec⟩ := (hv.led hled).owner ho hL hown
    obtain ⟨u, hu, rfl, rfl⟩ := hv.roster_iff.mp hN
    refine ⟨u, hu, hNt, hq, ?_, (Ctx.coarse_owning u.ctx).symm.trans hNo, fun l hl => ?_⟩
    · simpa [Task.life] using hNz
    · exact hrec l.life (roster_eq_of_find hl)
  · -- a group in which `exit_group` was called is torn down or dead
    intro g hg
    rcases he.fate g hg with ⟨p, X, hX, hXt, hXp⟩ | hall
    · obtain ⟨L, hL, rfl⟩ := World.cores_eq_some hX
      obtain ⟨u, hu, -, rfl⟩ := hv.roster_iff.mp hL
      have hc : u.ctx.coarse.tearing = u.ctx.tearing := by cases u.ctx <;> rfl
      exact .inl ⟨u, hu, hXt, hc.symm.trans hXp⟩
    · refine .inr fun u hu hut => ?_
      have hz := (hall u.pid u.life.core (World.cores_of (hv.roster_of_mem hu)) hut).1
      simpa [Task.life] using hz
  · -- a group has one owner
    intro u hu v hv' huo hvo ht
    have hp := ho.unique (World.cores_of (hv.roster_of_mem hu)) (World.cores_of (hv.roster_of_mem hv'))
      ((Ctx.coarse_owning u.ctx).trans huo) ((Ctx.coarse_owning v.ctx).trans hvo) ht
    exact hv.distinct.eq hu hv' hp

theorem init.inv (h : s.init) : s.Inv := by
  refine ⟨h.1.governed, fun g hg => ?_, fun g N hg => ?_⟩ <;>
  · rw [h.2 g] at hg
    contradiction

/-- **`exit_group` and fatal signals end the whole group**, in every run in which no thread
claims the exit of a group that has lost its leader and that nobody is ending, and no thread
calls `exit_group` or takes a fatal signal while another one of its group execs. -/
theorem exit_group_ends_whole {s : Ending} (h : Reachable init ok step s) : s.EndsWhole :=
  (h.invariant (P := Inv) (fun _ h => h.inv) fun _ _ _ h hok hs => h.step hok hs).endsWhole

theorem init_threeThreads : init ⟨.threeThreads, fun _ => false⟩ :=
  ⟨atRest_threeThreads, fun _ => rfl⟩

/-- Thread 6 ends the group while the leader claims too: the leader loses, to a live owner. -/
theorem exit_group_ends_whole_race : ∃ s, Reachable init ok step s ∧ s.ended 5 = true ∧
      s.kernel.rq.slots.map (fun t => (t.pid, t.state, t.ctx)) =
        [(1, .ready, .elsewhere), (5, .zombie, .left), (6, .running, .killing 3),
          (7, .running, .elsewhere)] ∧ s.EndsWhole := by
  have hrun : Reachable init ok step _ :=
    (((Reachable.start init_threeThreads).next (a := .exitGroup 6 3)
      (show Kernel.led _ 6 = true ∧ Kernel.execs _ 6 = false by decide +kernel) rfl).next
      (a := .exitGroup 5 4)
      (show Kernel.led _ 5 = true ∧ Kernel.execs _ 5 = false by decide +kernel) rfl).next
      (a := .reparent 6) trivial rfl
  exact ⟨_, hrun, by decide +kernel, by decide +kernel, exit_group_ends_whole hrun⟩

/-- The leader leaves by `exit` and is reaped; then thread 6 calls `exit_group`, finds no
leader, and dies alone. Thread 7 lives on, and nobody is left who would end it. -/
theorem exit_group_without_leader :
    ∃ s, Reachable init (fun _ _ => True) step s ∧ s.ended 5 = true ∧
      s.kernel.rq.slots.map (fun t => (t.pid, t.state, t.ctx)) =
        [(1, .ready, .elsewhere), (7, .running, .elsewhere)] ∧
      (s.kernel.rq.findPid 7).map Task.tgid = some 5 := by
  have hrun : Reachable init (fun _ _ => True) step _ :=
    (((((Reachable.start init_threeThreads).next (a := .exit 5 0) trivial rfl).next
      (a := .reparent 5) trivial rfl).next (a := .switchOut 5 0) trivial rfl).next
      (a := .exitGroup 6 3) trivial rfl).next (a := .switchOut 6 0) trivial rfl
  exact ⟨_, hrun, by decide +kernel, by decide +kernel, by decide +kernel⟩

end Ending

end Leandros.Sched
