import Leandros.Sched.Life.Owner

/-!
# Leandros.Sched.Life.Pids

**Pids in use are below the counter.** `alloc_pid` counts up in a `u32` and looks at
nothing, so a new pid is new as long as the counter has not wrapped. `World.Numbered` says
so of everything that names a task: the tasks, their groups and parents, and the records of
the exit log.

A step does one of four things to the names: it edits tasks without touching their
names, moves a name from the run queue into the log (`reap`), moves records about in the log
(`Refiles`), or takes the next number for a new task (`enrol`). `Step.numbered` goes through the
steps with a lemma for each. What the other modules use of it is `fresh`: no task and no record has
the number that is handed out next.
-/

namespace Leandros.Sched

open OrdMap
open Or (inl inr)
open Option (map_eq_some_iff)

namespace ExitLog

/-- The record is somewhere in the log. -/
def Holds (log : ExitLog) (e : ExitRecord) : Prop :=
  (∃ i, log.zombies.get? i = some e) ∨ ∃ i, log.recent.get? i = some e

variable {log : ExitLog} {e : ExitRecord}

theorem holds_pushRecent {r : ExitRecord} (h : (log.pushRecent r).Holds e) :
    e = r ∨ log.Holds e := by
  rcases h with ⟨i, hi⟩ | ⟨i, hi⟩
  · exact .inr (inl ⟨i, hi⟩)
  simp only [pushRecent, get?_insert] at hi
  split at hi
  · exact .inl (Option.some.inj hi).symm
  · exact .inr (inr ⟨i, hi⟩)

theorem holds_insert {r : ExitRecord} (h : (log.insert r).Holds e) : e = r ∨ log.Holds e := by
  unfold insert at h
  split at h
  · split at h
    · rcases h with ⟨i, hi⟩ | hi
      · simp only [get?_insert] at hi
        split at hi
        · exact .inl (Option.some.inj hi).symm
        · exact .inr (inl ⟨i, hi⟩)
      · exact .inr (inr hi)
    · exact holds_pushRecent h
  · exact holds_pushRecent h

/-- A change to some records that leaves alone what they are about. -/
def Refiles (log log' : ExitLog) (f : ExitRecord → ExitRecord) : Prop :=
  ∀ e, log'.Holds e → ∃ e₀, log.Holds e₀ ∧ (e = e₀ ∨ e = f e₀)

theorem refiles_consumeZombie (log : ExitLog) (i : Nat) :
    log.Refiles (log.consumeZombie i) fun e => { e with consumed := true } := by
  intro e h
  unfold consumeZombie at h
  split at h
  · next r hr =>
    rcases holds_pushRecent h with rfl | h
    · exact ⟨r, inl ⟨i, hr⟩, inr rfl⟩
    rcases h with ⟨j, hj⟩ | hj
    · simp only [get?_erase] at hj
      split at hj
      · contradiction
      · exact ⟨e, inl ⟨j, hj⟩, inl rfl⟩
    · exact ⟨e, inr hj, inl rfl⟩
  · exact ⟨e, h, inl rfl⟩

theorem refiles_consumeSpilled (log : ExitLog) (i : Nat) :
    log.Refiles (log.consumeSpilled i) fun e => { e with consumed := true } := by
  rintro e (hj | ⟨j, hj⟩)
  · exact ⟨e, inl hj, inl rfl⟩
  simp only [consumeSpilled, get?_modify] at hj
  split at hj
  · obtain ⟨r, hr, rfl⟩ := map_eq_some_iff.mp hj
    exact ⟨r, inr ⟨i, hr⟩, inr rfl⟩
  · exact ⟨e, inr ⟨j, hj⟩, inl rfl⟩

theorem refiles_forEachPending (log : ExitLog) (f : ExitRecord → ExitRecord) :
    log.Refiles (log.forEachPending f) f := by
  rintro e (⟨j, hj⟩ | ⟨j, hj⟩)
  · simp only [forEachPending, get?_mapVals] at hj
    obtain ⟨r, hr, rfl⟩ := map_eq_some_iff.mp hj
    exact ⟨r, inl ⟨j, hr⟩, inr rfl⟩
  simp only [forEachPending] at hj
  split at hj
  · rw [get?_mapVals] at hj
    obtain ⟨r, hr, rfl⟩ := map_eq_some_iff.mp hj
    refine ⟨r, inr ⟨j, hr⟩, ?_⟩
    split
    · exact .inr rfl
    · exact .inl rfl
  · exact ⟨e, inr ⟨j, hj⟩, inl rfl⟩

end ExitLog

namespace World

variable {w w' : World}

/-- One change to all tasks and one to `p`, as one. -/
theorem roster_map_edit (w : World) (log : ExitLog) (f g : Life → Life) (p q : Nat) :
    ({ w.map f with log := log }.edit p g).roster q =
      (w.roster q).map fun M => if q = p then g (f M) else f M := by
  rw [edit_roster]
  by_cases hq : q = p
  · subst hq
    simp [Function.comp_def]
  · simp [if_neg hq]

theorem roster_edit_edit (w : World) (f g : Life → Life) (p p' q : Nat) :
    ((w.edit p f).edit p' g).roster q = (w.roster q).map fun M =>
        if q = p' then g (if q = p then f M else M) else if q = p then f M else M := by
  simp only [edit_roster]
  by_cases hq : q = p'
  · subst hq
    by_cases hp : q = p
    · subst hp
      simp [Function.comp_def]
    · simp [if_neg hp]
  · by_cases hp : q = p
    · subst hp
      simp [if_neg hq]
    · simp [if_neg hq, if_neg hp]

theorem roster_claim (w : World) (p g : Nat) (won : Ctx) (q : Nat) :
    ((w.edit g fun M => { M with owner := p }).edit p fun L => { L with phase := won }).roster q =
      (w.roster q).map fun N =>
        { N with
          owner := if q = g then p else N.owner
          phase := if q = p then won else N.phase } := by
  rw [roster_edit_edit]
  congr 1
  funext N
  split_ifs <;> rfl

/-- Everything that names a task is below the counter. -/
structure Numbered (w : World) : Prop where
  pos : 0 < w.next
  init : w.init < w.next
  task : ∀ {q M}, w.roster q = some M → q < w.next ∧ M.tgid < w.next ∧ M.ppid < w.next
  exits : ∀ {e}, w.log.Holds e → e.isProcess = true → e.pid < w.next ∧ e.parentTgid < w.next

namespace Numbered

variable (h : w.Numbered)
include h

theorem fresh : w.Fresh := by
  refine ⟨h.pos.ne', ?_, fun q N hN ht => ?_⟩
  · by_contra hne
    obtain ⟨L, hL⟩ := Option.ne_none_iff_exists'.mp hne
    exact lt_irrefl _ (h.task hL).1
  · exact lt_irrefl _ (ht ▸ (h.task hN).2.1)

theorem resolve_lt {n : Nat} (hn : n < w.next) : w.resolve n < w.next := by
  unfold resolve
  cases hL : w.roster n with
  | none => exact hn
  | some => exact (h.task hL).2.1

/-- A step that touches neither the counter nor the numbers of a task. -/
theorem of_tasks (hi : w'.init = w.init) (hn : w'.next = w.next)
    (ht : ∀ q M', w'.roster q = some M' → ∃ M, w.roster q = some M ∧ M'.tgid = M.tgid ∧
      (M'.ppid = M.ppid ∨ M'.ppid = w.init))
    (hl : ∀ e, w'.log.Holds e → e.isProcess = true → e.pid < w.next ∧ e.parentTgid < w.next) :
    w'.Numbered := by
  refine ⟨hn ▸ h.pos, by rw [hi, hn]; exact h.init, fun {q M'} hM => ?_, ?_⟩
  · obtain ⟨M, hM, htg, hpp⟩ := ht q M' hM
    obtain ⟨h1, h2, h3⟩ := h.task hM
    rw [hn, htg]
    refine ⟨h1, h2, ?_⟩
    rcases hpp with hpp | hpp
    · rw [hpp]
      exact h3
    · rw [hpp]
      exact h.init
  · rw [hn]
    exact fun {e} => hl e

theorem edit (p : Nat) {f : Life → Life}
    (hf : ∀ L, (f L).tgid = L.tgid ∧ (f L).ppid = L.ppid) : (w.edit p f).Numbered := by
  refine h.of_tasks rfl rfl (fun q M' hM => ?_) fun e he => h.exits he
  rw [edit_roster] at hM
  split at hM
  · next hq =>
    subst hq
    obtain ⟨L, hL, rfl⟩ := map_eq_some_iff.mp hM
    exact ⟨L, hL, (hf L).1, inl (hf L).2⟩
  · exact ⟨M', hM, rfl, inl rfl⟩

theorem reap (hk : w.Keyed) {p : Nat} {L M : Life} {auto : Bool}
    (hL : w.roster p = some L) (hM : M.pid = L.pid ∧ M.ppid = L.ppid) :
    (w.reap M auto).Numbered := by
  refine h.of_tasks rfl rfl (fun q M' hM' => ?_) fun e he hp => ?_
  · exact ⟨M', of_reap hM', rfl, inl rfl⟩
  rcases ExitLog.holds_insert he with rfl | he
  · obtain ⟨h1, -, h3⟩ := h.task hL
    simp only [record, hM.1, hM.2, hk p L hL]
    exact ⟨h1, h.resolve_lt h3⟩
  · exact h.exits he hp

theorem refile {log : ExitLog} {f : ExitRecord → ExitRecord}
    (hr : w.log.Refiles log f) (hf : ∀ e, (f e).pid = e.pid ∧ (f e).isProcess = e.isProcess ∧
      ((f e).parentTgid = e.parentTgid ∨ (f e).parentTgid = w.init)) {e : ExitRecord}
    (he : log.Holds e) (hp : e.isProcess = true) : e.pid < w.next ∧ e.parentTgid < w.next := by
  obtain ⟨e₀, he₀, rfl | rfl⟩ := hr e he
  · exact h.exits he₀ hp
  obtain ⟨h1, h2, h3⟩ := hf e₀
  obtain ⟨hl1, hl2⟩ := h.exits he₀ (h2 ▸ hp)
  refine ⟨h1 ▸ hl1, ?_⟩
  rcases h3 with h3 | h3
  · rw [h3]
    exact hl2
  · rw [h3]
    exact h.init

/-- The counter goes on. -/
theorem advance (hwrap : w.next + 1 < 2 ^ 32) {roster : Nat → Option Life}
    (ht : ∀ {q M}, roster q = some M → q ≤ w.next ∧ M.tgid ≤ w.next ∧ M.ppid ≤ w.next) :
    Numbered { w with roster := roster, next := (w.next + 1) % 2 ^ 32 } := by
  have hmod : (w.next + 1) % 2 ^ 32 = w.next + 1 := Nat.mod_eq_of_lt hwrap
  refine ⟨?_, ?_, fun {q M} hM => ?_, fun {e} he hpr => ?_⟩ <;> simp only [hmod]
  · exact Nat.succ_pos _
  · exact Nat.lt_succ_of_lt h.init
  · have := ht hM
    omega
  · have := h.exits he hpr
    omega

theorem enrol (hwrap : w.next + 1 < 2 ^ 32) {L : Life} (hg : L.tgid ≤ w.next)
    (hp : L.ppid < w.next) : Numbered
      { w with
        roster := Function.update w.roster w.next (some L)
        next := (w.next + 1) % 2 ^ 32 } := by
  refine h.advance hwrap fun hM => ?_
  rcases update_eq_some hM with ⟨rfl, hL⟩ | ⟨-, hM⟩
  · cases hL
    omega
  · have := h.task hM
    omega

end Numbered

/-- The numbers stay below the counter unless it wraps. -/
theorem Step.numbered {a : Action} (hk : w.Keyed) (h : w.Numbered)
    (hwrap : a.creates = true → w.next + 1 < 2 ^ 32) (hs : w.Step a w') : w'.Numbered := by
  cases hs with
  | same => exact h
  -- edits of one life that leave its pid, its group and its parent alone
  | revive | claimLost | keepChildren | killMark | killDone | exit | execLeader | reported =>
    exact h.edit _ fun L => ⟨rfl, rfl⟩
  | reapSelf hL => exact h.reap hk hL ⟨rfl, rfl⟩
  | @stamp _ p =>
    refine h.of_tasks rfl rfl (fun q M' hM' => ?_) fun e he => h.exits he
    have hM' := (roster_map_edit w w.log _ _ p q).symm.trans hM'
    obtain ⟨M, hM, rfl⟩ := map_eq_some_iff.mp hM'
    refine ⟨M, hM, ?_, inl ?_⟩ <;> split_ifs <;> rfl
  | @claimWon _ p L M code won hL hc hM =>
    refine h.of_tasks rfl rfl (fun q M' hM' => ?_) fun e he => h.exits he
    rw [roster_edit_edit] at hM'
    obtain ⟨M, hM, rfl⟩ := map_eq_some_iff.mp hM'
    refine ⟨M, hM, ?_, inl ?_⟩ <;> split_ifs <;> rfl
  | @reparent p L first =>
    refine h.of_tasks rfl rfl (fun q M' hM' => ?_) fun e he hpr => ?_
    -- children get a parent that was in use all along
    · rw [roster_map_edit] at hM'
      obtain ⟨M, hM, rfl⟩ := map_eq_some_iff.mp hM'
      refine ⟨M, hM, ?_, ?_⟩
      · split_ifs <;> rfl
      · split_ifs <;> simp
    dsimp only [edit] at he
    split at he
    · refine h.refile (ExitLog.refiles_forEachPending _ _) (fun r => ?_) he hpr
      split
      · exact ⟨rfl, rfl, inr rfl⟩
      · exact ⟨rfl, rfl, inl rfl⟩
    · exact h.exits he hpr
  | killReap hL hkl hM => exact h.reap hk hM ⟨rfl, rfl⟩
  -- the caller becomes the leader of a group with its own pid
  | @promoted p klocks L hL =>
    refine ⟨h.pos, h.init, fun {q M'} hM' => ?_, fun {e} he => h.exits he⟩
    rcases edit_eq_some hL hM' with ⟨rfl, rfl⟩ | ⟨-, hM⟩
    · obtain ⟨h1, -, h3⟩ := h.task hL
      exact ⟨h1, h1, h3⟩
    · exact h.task hM
  | @exchanged p klocks L M rec hL hph hl hM hy hrec =>
    obtain ⟨-, hlt, -⟩ := h.task hL
    refine ⟨h.pos, h.init, fun {q M'} hM' => ?_, fun {e} he hp => ?_⟩
    -- the leader's pid is used again by the caller, and it was below the counter
    · dsimp only at hM' ⊢
      obtain ⟨-, hM'⟩ := Option.ite_none_left_eq_some.mp hM'
      split at hM'
      · next hq =>
        cases hM'
        refine ⟨hq ▸ hlt, hlt, ?_⟩
        split
        · exact hlt
        · exact (h.task hM).2.2
      · obtain ⟨N, hN, rfl⟩ := map_eq_some_iff.mp hM'
        obtain ⟨h1, h2, h3⟩ := h.task hN
        split
        · exact ⟨h1, h2, hlt⟩
        · exact ⟨h1, h2, h3⟩
    · rcases ExitLog.holds_insert he with rfl | he
      · rw [hrec] at hp
        contradiction
      · exact h.exits he hp
  | @cloned p L thread hL =>
    refine h.enrol (hwrap rfl) ?_ ?_
    · show (if thread then L.tgid else w.next) ≤ w.next
      have := h.task hL
      split <;> omega
    · show L.pid < w.next
      rw [hk p L hL]
      exact (h.task hL).1
  | spawned => exact h.enrol (hwrap rfl) le_rfl h.pos
  -- a refused fork has used up a pid all the same
  | refused ha =>
    refine h.advance (hwrap ha) fun hM => ?_
    have := h.task hM
    omega
  | consumed i =>
    refine h.of_tasks rfl rfl (fun q M hM => ⟨M, hM, rfl, inl rfl⟩) fun e he hp => ?_
    exact h.refile (ExitLog.refiles_consumeZombie w.log i) (fun r => ⟨rfl, rfl, inl rfl⟩) he hp
  | consumedSpilled i =>
    refine h.of_tasks rfl rfl (fun q M hM => ⟨M, hM, rfl, inl rfl⟩) fun e he hp => ?_
    exact h.refile (ExitLog.refiles_consumeSpilled w.log i) (fun r => ⟨rfl, rfl, inl rfl⟩) he hp

end World

theorem ExitLog.not_holds_new (e : ExitRecord) : ¬ExitLog.new.Holds e := by
  rintro (⟨i, hi⟩ | ⟨i, hi⟩) <;> contradiction

/-- Before anything has exited, the tasks are all there is to look at. -/
theorem Kernel.numbered_of_slots {k : Kernel} (hpos : 0 < k.nextPid) (hinit : k.initPid < k.nextPid)
    (hall : ∀ t ∈ k.rq.slots, t.pid < k.nextPid ∧ t.tgid < k.nextPid ∧ t.ppid < k.nextPid)
    (hlog : k.exitLog = .new) : k.world.Numbered where
  pos := hpos
  init := hinit
  task := by
    intro q M hM
    obtain ⟨t, ht, rfl⟩ := map_eq_some_iff.mp hM
    obtain ⟨hmem, rfl⟩ := RunQueue.findPid_eq_some ht
    exact hall t (RunQueue.mem_slots.mpr hmem)
  exits := by
    intro e he
    rw [show k.world.log = .new from hlog] at he
    exact absurd he (ExitLog.not_holds_new e)

end Leandros.Sched
