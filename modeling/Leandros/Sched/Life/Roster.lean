import Leandros.Sched.Kernel

/-!
# Leandros.Sched.Life.Roster

**The life of a task, apart from everything else**: who it is, whose child it is, where it
is in the exit code, and what will be reported of it. `Task.life` reads these fields off a
task, `RunQueue.roster` looks them up by pid.

Most holds of `RUN_QUEUE` change none of it. `RunQueue.Steady` says so slot by slot; it is
closed under the ways a hold rewrites tasks, and it carries along the one fact about
CPUs that the exit code needs, that a thread off its CPU is at a place where it may be.
-/

namespace Leandros.Sched

open Function (update update_of_ne update_self)
open Option (ext map map_eq_some_iff map_some)

/-- The place in the code, with the places of ordinary threads taken together. -/
def Ctx.coarse : Ctx → Ctx
  | .sampled _ _ _ _ | .dequeued _ _ _ _ | .parked | .masked _ => .elsewhere
  | c => c

theorem Ctx.coarse_yields {c : Ctx} (h : c.yields = true) : c.coarse.yields = true := by
  cases c <;> first | rfl | contradiction

theorem Ctx.coarse_sleeps {c : Ctx} (h : c.sleeps = true) : c.coarse.sleeps = true := by
  cases c <;> first | rfl | contradiction

/-- What there is to say about a task as a member of a process. -/
@[ext]
structure Life where
  pid : Nat
  tgid : Nat
  ppid : Nat
  pgid : Nat
  phase : Ctx
  zombie : Bool
  exitCode : Int
  termSignal : Nat
  waitReported : Bool
  owner : Nat
  killed : Bool
  deriving DecidableEq

/-- The life of a task. -/
def Task.life (t : Task) : Life where
  pid := t.pid
  tgid := t.tgid
  ppid := t.ppid
  pgid := t.pgid
  phase := t.ctx.coarse
  zombie := t.state == .zombie
  exitCode := t.exitCode
  termSignal := t.termSignal
  waitReported := t.waitReported
  owner := t.groupExitOwner
  killed := t.groupKilled

/-! ### Holds that leave lives alone -/

/-- The place of a thread that is off its CPU. -/
def Task.Settled (t : Task) : Prop := t.onCpu = none → t.ctx.yields = true

/-- The same life, and settled if it was. -/
structure Task.Steady (t t' : Task) : Prop where
  life : t'.life = t.life
  settled : t.Settled → t'.Settled

namespace Task

theorem Steady.refl (t : Task) : t.Steady t := ⟨rfl, id⟩

theorem Steady.trans {t t' t'' : Task} (h : t.Steady t') (h' : t'.Steady t'') : t.Steady t'' :=
  ⟨h'.life.trans h.life, fun hs => h'.settled (h.settled hs)⟩

/-- A change of state that neither makes a zombie nor revives one. -/
theorem Steady.of_state {t t' : Task} (h : t'.life = { t.life with zombie := t'.life.zombie })
    (hz : t'.state = .zombie ↔ t.state = .zombie) (hs : t.Settled → t'.Settled) :
    t.Steady t' := by
  refine ⟨?_, hs⟩
  rw [h]
  refine Life.ext rfl rfl rfl rfl rfl ?_ rfl rfl rfl rfl rfl
  exact Bool.eq_iff_iff.mpr (by simpa [Task.life] using hz)

/-- A thread that is on a CPU moves between ordinary places. -/
theorem Steady.of_ctx {t t' : Task} (h : t'.life = t.life) (hcpu : t'.onCpu.isSome) : t.Steady t' :=
  ⟨h, fun _ hnone => by rw [hnone] at hcpu; contradiction⟩

end Task

namespace RunQueue

/-- Every slot holds a task with the same life. -/
structure Steady (rq rq' : RunQueue) : Prop where
  slot : ∀ i, Option.Rel Task.Steady (rq.tasks.get? i) (rq'.tasks.get? i)
  len : rq'.len = rq.len
  nproc : rq'.nproc = rq.nproc

section

variable {rq rq' rq'' : RunQueue}

theorem Steady.refl (rq : RunQueue) : rq.Steady rq := by
  refine ⟨fun i => ?_, rfl, rfl⟩
  cases rq.tasks.get? i with
  | none => exact .none
  | some t => exact .some (.refl t)

theorem Steady.trans (h : rq.Steady rq') (h' : rq'.Steady rq'') : rq.Steady rq'' := by
  refine ⟨fun i => ?_, h'.len.trans h.len, h'.nproc.trans h.nproc⟩
  have h1 := h.slot i
  have h2 := h'.slot i
  revert h1 h2
  generalize rq.tasks.get? i = a
  generalize rq'.tasks.get? i = b
  generalize rq''.tasks.get? i = c
  rintro (⟨h1⟩ | _) h2
  · cases h2 with
    | some h2 => exact .some (h1.trans h2)
  · cases h2 with
    | none => exact .none

variable {f : Task → Task}

theorem steady_modifyAt {i : Nat}
    (hf : ∀ t, rq.tasks.get? i = some t → t.Steady (f t)) : rq.Steady (rq.modifyAt i f) := by
  refine ⟨fun j => ?_, rfl, rfl⟩
  simp only [modifyAt, OrdMap.get?_modify]
  split
  · next hji =>
    subst hji
    cases ht : rq.tasks.get? j with
    | none => exact .none
    | some t => exact .some (hf t ht)
  · cases rq.tasks.get? j with
    | none => exact .none
    | some t => exact .some (.refl t)

theorem steady_modifyPid {pid : Nat}
    (hf : ∀ t, rq.findPid pid = some t → t.Steady (f t)) : rq.Steady (rq.modifyPid pid f) := by
  unfold modifyPid
  split
  · next i hi => exact steady_modifyAt fun t ht => hf t (by simp [findPid, hi, ht])
  · exact .refl rq

theorem steady_mapTasks (hf : ∀ t ∈ rq, t.Steady (f t)) : rq.Steady (rq.mapTasks f) := by
  refine ⟨fun j => ?_, rfl, rfl⟩
  simp only [mapTasks, OrdMap.get?_mapVals]
  cases ht : rq.tasks.get? j with
  | none => exact .none
  | some t => exact .some (hf t ⟨j, ht⟩)

end

/-! ### Lookups by pid -/

/-- The life of the task with a pid. -/
def roster (rq : RunQueue) (pid : Nat) : Option Life := (rq.findPid pid).map Task.life

/-- Every task is settled. -/
abbrev Settled (rq : RunQueue) : Prop := rq.All Task.Settled

section

variable {rq rq' : RunQueue} (hd : rq.Distinct)

include hd

theorem roster_eq_some {pid : Nat} {L : Life} :
    rq.roster pid = some L ↔ ∃ t ∈ rq, t.pid = pid ∧ t.life = L := by
  rw [roster, map_eq_some_iff]
  constructor
  · rintro ⟨t, ht, rfl⟩
    obtain ⟨hmem, hp⟩ := findPid_eq_some ht
    exact ⟨t, hmem, hp, rfl⟩
  · rintro ⟨t, hmem, rfl, rfl⟩
    exact ⟨t, hd.findPid hmem, rfl⟩

theorem Distinct.of_steady (h : rq.Steady rq') : rq'.Distinct := by
  intro i j t' u' ht hu hp
  have hi := h.slot i
  have hj := h.slot j
  rw [ht] at hi
  rw [hu] at hj
  generalize ha : rq.tasks.get? i = a at hi
  generalize hb : rq.tasks.get? j = b at hj
  cases hi with
  | some h1 =>
    cases hj with
    | some h2 =>
      refine hd i j _ _ ha hb ?_
      have e1 := congrArg Life.pid h1.life
      have e2 := congrArg Life.pid h2.life
      exact e1.symm.trans (hp.trans e2)

/-- A steady hold leaves the roster as it is. -/
theorem Steady.roster (h : rq.Steady rq') : rq'.roster = rq.roster := by
  -- slot by slot the lives are the same, and with distinct pids that is all a lookup sees
  have key : ∀ {i : Nat}, map Task.life (rq'.tasks.get? i) = map Task.life (rq.tasks.get? i) := by
    intro i
    have hi := h.slot i
    generalize rq.tasks.get? i = a at hi ⊢
    generalize rq'.tasks.get? i = b at hi ⊢
    cases hi with
    | some h1 => rw [map_some, map_some, h1.life]
    | none => rfl
  funext pid
  refine ext fun L => ?_
  rw [roster_eq_some (hd.of_steady h), roster_eq_some hd]
  constructor
  · rintro ⟨t, ⟨i, hi⟩, rfl, rfl⟩
    have hl := key (i := i)
    rw [hi, map_some, eq_comm, map_eq_some_iff] at hl
    obtain ⟨u, hu, he⟩ := hl
    exact ⟨u, ⟨i, hu⟩, congrArg Life.pid he, he⟩
  · rintro ⟨t, ⟨i, hi⟩, rfl, rfl⟩
    have hl := key (i := i)
    rw [hi, map_some, map_eq_some_iff] at hl
    obtain ⟨u, hu, he⟩ := hl
    exact ⟨u, ⟨i, hu⟩, congrArg Life.pid he, he⟩

omit hd in
theorem Steady.settled (h : rq.Steady rq') (hs : rq.Settled) : rq'.Settled := by
  rintro t' ⟨i, hi⟩
  have hr := h.slot i
  rw [hi] at hr
  generalize ha : rq.tasks.get? i = a at hr
  cases hr with
  | some h1 => exact h1.settled (hs _ ⟨i, ha⟩)

theorem roster_mapTasks {g : Task → Task} {G : Life → Life}
    (hg : ∀ t ∈ rq, (g t).life = G t.life) (hG : ∀ L, (G L).pid = L.pid) (pid : Nat) :
    (rq.mapTasks g).roster pid = (rq.roster pid).map G := by
  have hpid : ∀ t ∈ rq, (g t).pid = t.pid := fun t ht =>
    (congrArg Life.pid (hg t ht)).trans (hG t.life)
  rw [roster, findPid_mapTasks hd hpid, roster]
  cases h : rq.findPid pid with
  | none => rfl
  | some t => exact congrArg some (hg t (findPid_eq_some h).1)

variable {f : Task → Task} {t : Task}

theorem findPid_modifyPid (pid : Nat) (hf : ∀ t, (f t).pid = t.pid) (q : Nat) :
    (rq.modifyPid pid f).findPid q =
      (rq.findPid q).map fun t => if t.pid = pid then f t else t := by
  rw [hd.modifyPid_eq, findPid_mapTasks hd]
  intro t _
  split
  · exact hf t
  · rfl

theorem Distinct.modifyPid_modifyPid (pid : Nat) {g : Task → Task} (hf : ∀ t, (f t).pid = t.pid) :
    (rq.modifyPid pid f).modifyPid pid g = rq.modifyPid pid fun t => g (f t) := by
  have hd' : (rq.modifyPid pid f).Distinct := by
    rw [hd.modifyPid_eq]
    refine hd.mapTasks fun t _ => ?_
    split
    · exact hf t
    · rfl
  rw [hd'.modifyPid_eq, hd.modifyPid_eq, hd.modifyPid_eq, mapTasks_mapTasks]
  refine mapTasks_congr fun t _ => ?_
  by_cases h : t.pid = pid
  · simp [h, hf]
  · simp [h]

theorem roster_modifyPid {pid : Nat} (ht : rq.findPid pid = some t) (hp : (f t).pid = pid) :
    (rq.modifyPid pid f).Distinct ∧
      (rq.modifyPid pid f).roster = update rq.roster pid (some (f t).life) := by
  obtain ⟨hmem, htp⟩ := findPid_eq_some ht
  -- only the task itself has that pid, so the others do not matter
  have hf : ∀ u ∈ rq, (if u.pid = pid then f u else u).pid = u.pid := by
    intro u hu
    split
    · next h => rw [hd.eq hu hmem (h.trans htp.symm), hp, htp]
    · rfl
  rw [hd.modifyPid_eq]
  refine ⟨hd.mapTasks hf, funext fun q => ?_⟩
  rw [roster, findPid_mapTasks hd hf]
  by_cases hq : q = pid
  · subst hq
    rw [ht, map_some, map_some, if_pos htp, update_self]
  rw [update_of_ne hq, roster]
  cases hu : rq.findPid q with
  | none => rfl
  | some =>
    rw [map_some, map_some, if_neg]
    · rfl
    · exact fun h => hq ((findPid_eq_some hu).2.symm.trans h)

theorem roster_remove {i : Nat} (ht : rq.tasks.get? i = some t) :
    (rq.remove i).roster = update rq.roster t.pid none := by
  funext q
  refine ext fun L => ?_
  rw [roster_eq_some (hd.remove i)]
  by_cases hq : q = t.pid
  · subst hq
    refine iff_of_false ?_ (by simp)
    rintro ⟨u, hu, hp, -⟩
    exact ((hd.mem_remove ht).mp hu).2 hp
  · rw [update_of_ne hq, roster_eq_some hd]
    constructor
    · rintro ⟨u, hu, hp, rfl⟩
      exact ⟨u, ((hd.mem_remove ht).mp hu).1, hp, rfl⟩
    · rintro ⟨u, hu, rfl, rfl⟩
      exact ⟨u, (hd.mem_remove ht).mpr ⟨hu, hq⟩, rfl, rfl⟩

/-- A new task adds its life under its pid. -/
theorem roster_enqueue (h : rq.enqueue t = some rq') (hnew : ∀ u ∈ rq, u.pid ≠ t.pid) :
    rq'.roster = update rq.roster t.pid (some t.life) := by
  funext q
  refine ext fun L => ?_
  rw [roster_eq_some (hd.enqueue h hnew)]
  -- the new pid is found in the new slot, any other where it was
  by_cases hq : q = t.pid
  · subst hq
    rw [update_self, Option.some.injEq]
    constructor
    · rintro ⟨u, hu, hp, rfl⟩
      rcases (mem_enqueue h).mp hu with rfl | hu
      · rfl
      · exact absurd hp (hnew u hu)
    · rintro rfl
      exact ⟨t, (mem_enqueue h).mpr (Or.inl rfl), rfl, rfl⟩
  · rw [update_of_ne hq, roster_eq_some hd]
    constructor
    · rintro ⟨u, hu, hp, rfl⟩
      rcases (mem_enqueue h).mp hu with rfl | hu
      · exact absurd hp.symm hq
      · exact ⟨u, hu, hp, rfl⟩
    · rintro ⟨u, hu, rfl, rfl⟩
      exact ⟨u, (mem_enqueue h).mpr (Or.inr hu), rfl, rfl⟩

end

end RunQueue

end Leandros.Sched
