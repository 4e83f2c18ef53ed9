import Leandros.Sched.Life.Roster

/-!
# Leandros.Sched.Life.World

**An abstract model of processes.** A `World` is what is left of the scheduler when only
the lives of tasks and the exit log are looked at, and `World.Step` is everything that a
step of the scheduler can do to it. Which of several members a search picks, in which
order the slots lie, what happens to signals and CPUs: none of it is there any more.

`Sched.Life.Refine` shows that every step of `Kernel.step` is a step of this model, so
that what is kept here is kept there.
-/

namespace Leandros.Sched

open Function (update update_apply update_idem update_self)

/-- Processes and their exit records. -/
@[ext]
structure World where
  roster : Nat → Option Life
  log : ExitLog
  init : Nat
  next : Nat

namespace World

/-- The process a parent pid stands for: that of the thread, if there still is one. -/
def resolve (w : World) (pid : Nat) : Nat := ((w.roster pid).map Life.tgid).getD pid

/-- A change to one task. -/
def edit (w : World) (pid : Nat) (f : Life → Life) : World :=
  { w with roster := update w.roster pid ((w.roster pid).map f) }

/-- A change to every task. -/
def map (w : World) (f : Life → Life) : World := { w with roster := fun q => (w.roster q).map f }

/-- The record of a task that is taken off the queue; `auto` if its parent takes no statuses. -/
def record (w : World) (L : Life) (auto : Bool) : ExitRecord where
  pid := L.pid
  status := ⟨L.exitCode, L.termSignal⟩
  parentTgid := w.resolve L.ppid
  pgid := L.pgid
  isProcess := L.pid == L.tgid
  consumed := L.waitReported || (L.pid == L.tgid && auto)

/-- Log a task's exit and take it off the queue. -/
def reap (w : World) (L : Life) (auto : Bool) : World :=
  { w with
    roster := update w.roster L.pid none
    log := w.log.insert (w.record L auto) }

/-- A process whose parent is `dead`. -/
def IsChild (w : World) (dead q : Nat) : Prop :=
  ∃ M, w.roster q = some M ∧ M.tgid = q ∧ q ≠ dead ∧ w.resolve M.ppid = dead

/-- The child a thread with life `L` creates. -/
def child (w : World) (L : Life) (thread : Bool) : Life where
  pid := w.next
  tgid := if thread then L.tgid else w.next
  ppid := L.pid
  pgid := L.pgid
  phase := .elsewhere
  zombie := false
  exitCode := 0
  termSignal := 0
  waitReported := false
  owner := 0
  killed := false

/-- A kernel thread. -/
def kernelThread (w : World) : Life where
  pid := w.next
  tgid := w.next
  ppid := 0
  pgid := w.next
  phase := .elsewhere
  zombie := false
  exitCode := 0
  termSignal := 0
  waitReported := false
  owner := 0
  killed := false

end World

namespace Action

/-- The step may leave every life as it is. -/
def quiet : Action → Bool
  | .clone _ _ | .spawn | .exitGroupSignal _ _ | .exitGroup _ _ | .reparent _ | .exit _ _
  | .dethread _ => false
  | _ => true

/-- The step is a hold that ends no thread, claims nothing and reports nothing. -/
def calm : Action → Bool
  | .switchOut _ _ | .act _ _ | .kill _ _ | .takeOver _ _ | .wait _ _ _ _ => false
  | a => a.quiet

theorem quiet_of_calm {a : Action} (h : a.calm = true) : a.quiet = true := by
  cases a <;> first | rfl | contradiction

/-- The step creates a task. -/
def creates : Action → Bool
  | .clone _ _ | .spawn => true
  | _ => false

end Action

/-- A claim of the group's exit by a thread at a place: the code it exits with if it loses, and
where it goes on if it wins. -/
inductive Claims (pid : Nat) : Ctx → Action → Int → Ctx → Prop
  | exitGroup (code : Int) :
      Claims pid .elsewhere (.exitGroup pid code) code (.reparenting code true)
  | fatal (signo : Nat) (code : Int) :
      Claims pid (.stamped signo) (.exitGroup pid code) (128 + signo)
        (.reparenting (128 + signo) true)
  | dethread : Claims pid .elsewhere (.dethread pid) 0 .dethreading

/-- A kill loop: the code it kills with, whom it leaves alone, and where it goes on. -/
inductive Kills (L : Life) : Int → Nat → Ctx → Prop
  | group (code : Int) (h : L.phase = .killing code) : Kills L code 0 (.exiting code)
  | dethread (h : L.phase = .dethreading) :
      Kills L 0 (if L.pid = L.tgid then 0 else L.tgid) .takingOver

/-- A pass over the children: whether it is the first, and where it goes on. -/
inductive Passes (L : Life) : Bool → (Bool → Ctx) → Prop
  | group (code : Int) (first : Bool) (h : L.phase = .reparenting code first) :
      Passes L first fun more => if more then .reparenting code false else .killing code
  | leader (first : Bool) (h : L.phase = .leaving first) :
      Passes L first fun more => if more then .leaving false else .left

/-- What one step can do to the processes. -/
inductive World.Step (w : World) : Action → World → Prop
  | same {a : Action} (ha : a.quiet = true) : Step w a w
  /-- A thread that was marked dead by its group goes to sleep or runs on. -/
  | revive {a : Action} {p : Nat} {L : Life} (ha : a.quiet = true) (hL : w.roster p = some L)
      (hp : L.phase.sleeps = true ∨ L.killed = true) :
      Step w a (w.edit p fun L => { L with zombie := false })
  /-- The scheduler reaps a dead task that stops running. -/
  | reapSelf {p klocks : Nat} {L : Life} {auto : Bool} (hL : w.roster p = some L)
      (hz : L.zombie = true) (hy : L.phase.yields = true) :
      Step w (.switchOut p klocks) (w.reap L auto)
  /-- `exit_group_signal` marks the group. -/
  | stamp {a : Action} {p signo : Nat} {L : Life} (hL : w.roster p = some L)
      (hph : L.phase = .elsewhere)
      (ha : a = .exitGroupSignal p signo ∨ ∃ frameOk, a = .act p frameOk) :
      Step w a ((w.map fun M =>
        if (signo ≠ 0 ∧ signo ≤ 64) ∧ M.tgid = L.tgid then { M with termSignal := signo }
        else M).edit p fun L => { L with phase := .stamped signo })
  | claimWon {a : Action} {p : Nat} {L M : Life} {code : Int} {won : Ctx}
      (hL : w.roster p = some L) (hc : Claims p L.phase a code won)
      (hM : w.roster L.tgid = some M) (ho : M.owner = 0 ∨ M.owner = p) :
      Step w a ((w.edit L.tgid fun M => { M with owner := p }).edit p fun L =>
        { L with phase := won })
  | claimLost {a : Action} {p : Nat} {L : Life} {code : Int} {won : Ctx}
      (hL : w.roster p = some L) (hc : Claims p L.phase a code won)
      (ho : ∀ M, w.roster L.tgid = some M → M.owner ≠ 0 ∧ M.owner ≠ p) :
      Step w a (w.edit p fun L =>
        { L with
          exitCode := if L.zombie then L.exitCode else code
          zombie := true
          phase := .left })
  /-- There is no init to hand the children to, or it is init that ends. -/
  | keepChildren {p : Nat} {L : Life} {first : Bool} {next : Bool → Ctx}
      (hL : w.roster p = some L) (hp : Passes L first next)
      (hi : w.init = 0 ∨ w.init = L.tgid) :
      Step w (.reparent p) (w.edit p fun L => { L with phase := next false })
  /-- Some of the children, or all that there are, become init's. -/
  | reparent {p : Nat} {L : Life} {first more : Bool} {next : Bool → Ctx} {moved : Nat → Bool}
      (hL : w.roster p = some L) (hp : Passes L first next)
      (h0 : w.init ≠ 0) (h1 : w.init ≠ L.tgid)
      (hm : ∀ q, moved q = true → w.IsChild L.tgid q)
      (hall : more = false → ∀ q, w.IsChild L.tgid q → moved q = true) :
      Step w (.reparent p)
        ({ w.map fun M => if moved M.pid = true then { M with ppid := w.init } else M with
            log :=
              if first then
                w.log.forEachPending fun rec =>
                  if rec.parentTgid = L.tgid then { rec with parentTgid := w.init } else rec
              else w.log }.edit p fun L => { L with phase := next more })
  | killMark {p q : Nat} {klocks : Nat → Nat} {L M : Life} {code : Int} {skip : Nat} {next : Ctx}
      (hL : w.roster p = some L) (hk : Kills L code skip next) (hM : w.roster q = some M)
      (hg : M.tgid = L.tgid) (hp : q ≠ p) (hs : q ≠ skip) :
      Step w (.kill p klocks) (w.edit q fun M =>
        { M with zombie := true, killed := true, exitCode := code })
  | killReap {p q : Nat} {klocks : Nat → Nat} {L M : Life} {code : Int} {skip : Nat} {next : Ctx}
      {auto : Bool} (hL : w.roster p = some L) (hk : Kills L code skip next)
      (hM : w.roster q = some M) (hg : M.tgid = L.tgid) (hp : q ≠ p) (hs : q ≠ skip)
      (hy : M.phase.yields = true)
      -- The leader goes last.
      (hlast : q = L.tgid → ∀ r N, w.roster r = some N → N.tgid = L.tgid →
        r = p ∨ r = skip ∨ r = q) :
      Step w (.kill p klocks)
        (w.reap { M with zombie := true, killed := true, exitCode := code } auto)
  | killDone {p : Nat} {klocks : Nat → Nat} {L : Life} {code : Int} {skip : Nat} {next : Ctx}
      (hL : w.roster p = some L) (hk : Kills L code skip next)
      (hnone : ∀ q M, w.roster q = some M → M.tgid = L.tgid → q = p ∨ q = skip) :
      Step w (.kill p klocks) (w.edit p fun L => { L with phase := next })
  | exit {p : Nat} {L : Life} {c code : Int} (hL : w.roster p = some L)
      (hph : L.phase = .elsewhere ∧ code = c ∨ L.phase = .exiting code) :
      Step w (.exit p c) (w.edit p fun L =>
        { L with
          zombie := true
          exitCode := code
          phase := if L.pid = L.tgid then .leaving true else .left })
  | execLeader {p : Nat} {klocks : Nat → Nat} {L : Life} (hL : w.roster p = some L)
      (hph : L.phase = .takingOver) (hl : L.tgid = p) :
      Step w (.takeOver p klocks) (w.edit p fun L => { L with owner := 0, phase := .elsewhere })
  | promoted {p : Nat} {klocks : Nat → Nat} {L : Life} (hL : w.roster p = some L)
      (hph : L.phase = .takingOver) (hl : L.tgid ≠ p) (hnone : w.roster L.tgid = none) :
      Step w (.takeOver p klocks) (w.edit p fun L =>
        { L with tgid := p, owner := 0, phase := .elsewhere })
  /-- The caller gets the leader's pid, and the leader dies as the thread the caller was. -/
  | exchanged {p : Nat} {klocks : Nat → Nat} {L M : Life} {rec : ExitRecord}
      (hL : w.roster p = some L) (hph : L.phase = .takingOver) (hl : L.tgid ≠ p)
      (hM : w.roster L.tgid = some M) (hy : M.phase.yields = true) (hrec : rec.isProcess = false) :
      Step w (.takeOver p klocks)
        { w with
          roster := fun q =>
            if q = p then none
            else if q = L.tgid then
              some
                { L with
                  pid := L.tgid
                  ppid := if M.ppid = p then L.tgid else M.ppid
                  pgid := M.pgid
                  waitReported := M.waitReported
                  owner := 0
                  phase := .elsewhere }
            else (w.roster q).map fun N => if N.ppid = p then { N with ppid := L.tgid } else N
          log := w.log.insert rec }
  | cloned {p : Nat} {L : Life} {thread : Bool} (hL : w.roster p = some L)
      (hph : L.phase = .elsewhere) :
      Step w (.clone p thread)
        { w with
          roster := update w.roster w.next (some (w.child L thread))
          next := (w.next + 1) % 2 ^ 32 }
  | spawned : Step w .spawn
        { w with
          roster := update w.roster w.next (some w.kernelThread)
          next := (w.next + 1) % 2 ^ 32 }
  /-- No room for the new task. -/
  | refused {a : Action} (ha : a.creates = true) : Step w a { w with next := (w.next + 1) % 2 ^ 32 }
  /-- A waiter is told of a child that is still on the queue. -/
  | reported {p q : Nat} {sel : WaitSel} {what : WaitWhat} {L M : Life}
      (hL : w.roster p = some L) (hM : w.roster q = some M) (hl : M.tgid = q)
      (hz : M.zombie = true) (hr : M.waitReported = false) (hc : w.resolve M.ppid = L.tgid) :
      Step w (.wait p sel true what) (w.edit q fun M => { M with waitReported := true })
  | consumed {p : Nat} {sel : WaitSel} {what : WaitWhat} (i : Nat) :
      Step w (.wait p sel true what) { w with log := w.log.consumeZombie i }
  | consumedSpilled {p : Nat} {sel : WaitSel} {what : WaitWhat} (i : Nat) :
      Step w (.wait p sel true what) { w with log := w.log.consumeSpilled i }

/-- The processes of a scheduler state. -/
def Kernel.world (k : Kernel) : World where
  roster := k.rq.roster
  log := k.exitLog
  init := k.initPid
  next := k.nextPid

/-! ### Lookups after a change -/

namespace World

variable {w : World}

@[simp] theorem edit_roster (w : World) (pid : Nat) (f : Life → Life) (q : Nat) :
    (w.edit pid f).roster q = if q = pid then (w.roster pid).map f else w.roster q := by
  simp [edit, update_apply]

@[simp] theorem map_roster (w : World) (f : Life → Life) (q : Nat) :
    (w.map f).roster q = (w.roster q).map f := rfl

@[simp] theorem reap_roster (w : World) (L : Life) (auto : Bool) (q : Nat) :
    (w.reap L auto).roster q = if q = L.pid then none else w.roster q := by
  simp [reap, update_apply]

variable {f : Life → Life}

/-- A task after a change to `p` is the changed one, or was there before. -/
theorem edit_eq_some {p q : Nat} {L N : Life} (hL : w.roster p = some L)
    (h : (w.edit p f).roster q = some N) : q = p ∧ N = f L ∨ q ≠ p ∧ w.roster q = some N := by
  rw [edit_roster] at h
  split at h
  · next hq =>
    rw [hL] at h
    exact .inl ⟨hq, (Option.some.inj h).symm⟩
  · next hq => exact .inr ⟨hq, h⟩

theorem of_reap {q : Nat} {L N : Life} {auto : Bool} (h : (w.reap L auto).roster q = some N) :
    w.roster q = some N := by
  rw [reap_roster] at h
  split at h
  · contradiction
  · exact h

theorem edit_edit (w : World) (pid : Nat) (f g : Life → Life) :
    (w.edit pid f).edit pid g = w.edit pid fun L => g (f L) := by
  simp only [edit, update_self, Option.map_map, update_idem]
  rfl

theorem resolve_edit (w : World) (pid : Nat) (hf : ∀ L, (f L).tgid = L.tgid)
    (q : Nat) : (w.edit pid f).resolve q = w.resolve q := by
  simp only [resolve, edit_roster]
  split
  · next h =>
    subst h
    cases w.roster q with
    | none => rfl
    | some L => exact hf L
  · rfl

theorem reap_edit (w : World) (hf : ∀ L, (f L).tgid = L.tgid) (L : Life)
    (auto : Bool) : (w.edit L.pid f).reap L auto = w.reap L auto := by
  simp only [reap, record, resolve_edit w L.pid hf]
  simp [edit]

/-- Tasks are filed under their pid. -/
def Keyed (w : World) : Prop := ∀ q M, w.roster q = some M → M.pid = q

end World

theorem Kernel.keyed_world (k : Kernel) : k.world.Keyed := by
  intro q M hM
  obtain ⟨t, ht, rfl⟩ := Option.map_eq_some_iff.mp hM
  exact (RunQueue.findPid_eq_some ht).2

end Leandros.Sched
