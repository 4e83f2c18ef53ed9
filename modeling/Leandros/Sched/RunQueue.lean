import Leandros.Lib.OrdMap
import Leandros.Sched.Task

/-!
# Leandros.Sched.RunQueue

The task table (`sched/src/runqueue.rs`): slots, the number of tasks and the
number of thread-group leaders. The pid index of the source answers the same
lookups faster and is left out, and so is the choice of the task to run next.

Almost every critical section of the scheduler rewrites tasks in place. With
distinct pids each of them is `mapTasks g` for some `g`, and that is the form in
which the later modules reason about them.

`All p` says that every task has the property `p`, and there is a lemma for each way of rewriting the
queue; an invariant of single tasks needs nothing else. `Distinct` says that no two tasks have
the same pid, which makes a lookup by pid the task itself.
-/

namespace Leandros.Sched

open OrdMap

/-- `MAX_TASKS`. -/
def maxTasks : Nat := 4096

/-- `RunQueue`. -/
structure RunQueue where
  tasks : OrdMap Task
  len : Nat
  nproc : Nat

namespace RunQueue

instance : Membership Task RunQueue := ⟨fun rq t => ∃ i, rq.tasks.get? i = some t⟩

/-- `RunQueue::new`. -/
def new : RunQueue := ⟨.empty, 0, 0⟩

/-- The tasks in slot order. -/
def slots (rq : RunQueue) : List Task := rq.tasks.entries.map Prod.snd

/-- `find_pid_idx`. -/
def findPidIdx (rq : RunQueue) (pid : Nat) : Option Nat := rq.tasks.findKey? fun t => t.pid == pid

/-- `find_pid`. -/
def findPid (rq : RunQueue) (pid : Nat) : Option Task := (rq.findPidIdx pid).bind rq.tasks.get?

/-- A change to the task in one slot. -/
def modifyAt (rq : RunQueue) (i : Nat) (f : Task → Task) : RunQueue :=
  { rq with tasks := rq.tasks.modify i f }

/-- A change through `find_pid_mut`. -/
def modifyPid (rq : RunQueue) (pid : Nat) (f : Task → Task) : RunQueue :=
  match rq.findPidIdx pid with
  | some i => rq.modifyAt i f
  | none => rq

/-- A change to every task in turn. -/
def mapTasks (rq : RunQueue) (f : Task → Task) : RunQueue :=
  { rq with tasks := rq.tasks.mapVals fun _ => f }

/-- `find_pid(pid).map(|p| p.tgid).unwrap_or(pid)`. -/
def resolve (rq : RunQueue) (pid : Nat) : Nat := ((rq.findPid pid).map Task.tgid).getD pid

/-- `enqueue` into the first free slot. -/
def enqueue (rq : RunQueue) (t : Task) : Option RunQueue :=
  if rq.tasks.freeKey < maxTasks then
    some
      { tasks := rq.tasks.insert rq.tasks.freeKey t
        len := rq.len + 1
        nproc := if t.pid = t.tgid then rq.nproc + 1 else rq.nproc }
  else none

/-- `remove`. -/
def remove (rq : RunQueue) (i : Nat) : RunQueue :=
  match rq.tasks.get? i with
  | some t =>
    { tasks := rq.tasks.erase i
      len := rq.len - 1
      nproc := if t.pid = t.tgid then rq.nproc - 1 else rq.nproc }
  | none => rq

/-- `note_leader_promoted`. -/
def noteLeaderPromoted (rq : RunQueue) : RunQueue := { rq with nproc := rq.nproc + 1 }

/-! ### Lookups -/

variable {rq : RunQueue} {t : Task} {pid : Nat} {g : Task → Task}

theorem mem_slots : t ∈ rq.slots ↔ t ∈ rq := by
  simp only [slots, List.mem_map]
  constructor
  · rintro ⟨e, he, rfl⟩
    exact ⟨e.1, mem_entries.mp he⟩
  · rintro ⟨i, hi⟩
    exact ⟨(i, t), mem_entries.mpr hi, rfl⟩

theorem findPidIdx_eq_some {i : Nat} (h : rq.findPidIdx pid = some i) :
    ∃ t, rq.tasks.get? i = some t ∧ t.pid = pid := by
  obtain ⟨t, ht, hp⟩ := findKey?_eq_some h
  exact ⟨t, ht, beq_iff_eq.mp hp⟩

theorem findPidIdx_eq_none : rq.findPidIdx pid = none ↔ ∀ t ∈ rq, t.pid ≠ pid := by
  rw [findPidIdx, findKey?_eq_none]
  constructor
  · rintro h t ⟨i, hi⟩
    simpa using h i t hi
  · intro h i t hi
    simpa using h t ⟨i, hi⟩

theorem findPid_eq_some (h : rq.findPid pid = some t) : t ∈ rq ∧ t.pid = pid := by
  obtain ⟨i, hi, ht⟩ := Option.bind_eq_some_iff.mp h
  obtain ⟨u, hu, hp⟩ := findPidIdx_eq_some hi
  cases ht.symm.trans hu
  exact ⟨⟨i, ht⟩, hp⟩

theorem findPid_eq_none : rq.findPid pid = none ↔ ∀ t ∈ rq, t.pid ≠ pid := by
  rw [← findPidIdx_eq_none, findPid]
  cases hi : rq.findPidIdx pid with
  | none => simp
  | some =>
    obtain ⟨u, hu, -⟩ := findPidIdx_eq_some hi
    simp [hu]

/-! ### Properties of single tasks -/

/-- Every task satisfies `P`. -/
def All (P : Task → Prop) (rq : RunQueue) : Prop := ∀ t ∈ rq, P t

section All

variable {P : Task → Prop} {rq : RunQueue}

variable {f : Task → Task}

variable (h : rq.All P)
include h

/-- A change to the task in a slot that is known. -/
theorem All.modifySlot {i : Nat} (hf : ∀ t, rq.tasks.get? i = some t → P t → P (f t)) :
    (rq.modifyAt i f).All P := by
  rintro t ⟨j, hj⟩
  simp only [RunQueue.modifyAt, get?_modify] at hj
  split at hj
  · obtain ⟨u, hu, rfl⟩ := Option.map_eq_some_iff.mp hj
    exact hf u hu (h u ⟨i, hu⟩)
  · exact h t ⟨j, hj⟩

theorem All.modifyAt (hf : ∀ t ∈ rq, P t → P (f t)) (i : Nat) : (rq.modifyAt i f).All P :=
  h.modifySlot fun t ht => hf t ⟨i, ht⟩

theorem All.modifyPid (pid : Nat)
    (hf : ∀ t ∈ rq, t.pid = pid → P t → P (f t)) : (rq.modifyPid pid f).All P := by
  unfold RunQueue.modifyPid
  split
  · next i hi =>
    obtain ⟨u, hu, hp⟩ := findPidIdx_eq_some hi
    rintro t ⟨j, hj⟩
    simp only [RunQueue.modifyAt, get?_modify, hu] at hj
    split at hj
    · cases hj
      exact hf u ⟨i, hu⟩ hp (h u ⟨i, hu⟩)
    · exact h t ⟨j, hj⟩
  · exact h

theorem All.mapTasks (hf : ∀ t ∈ rq, P t → P (f t)) : (rq.mapTasks f).All P := by
  rintro t ⟨j, hj⟩
  simp only [RunQueue.mapTasks, get?_mapVals, Option.map_eq_some_iff] at hj
  obtain ⟨u, hu, rfl⟩ := hj
  exact hf u ⟨j, hu⟩ (h u ⟨j, hu⟩)

theorem All.remove (i : Nat) : (rq.remove i).All P := by
  unfold RunQueue.remove
  split
  · rintro t ⟨j, hj⟩
    simp only [get?_erase] at hj
    split at hj
    · contradiction
    · exact h t ⟨j, hj⟩
  · exact h

theorem All.enqueue {t : Task} {rq' : RunQueue} (ht : P t)
    (he : rq.enqueue t = some rq') : rq'.All P := by
  unfold RunQueue.enqueue at he
  split at he
  · cases he
    rintro u ⟨j, hj⟩
    simp only [get?_insert] at hj
    split at hj
    · cases hj
      exact ht
    · exact h u ⟨j, hj⟩
  · contradiction

end All

/-! ### Distinct pids -/

/-- No two tasks have the same pid. -/
def Distinct (rq : RunQueue) : Prop :=
  ∀ i j t u, rq.tasks.get? i = some t → rq.tasks.get? j = some u → t.pid = u.pid → i = j

/-- Distinct pids in slot order. -/
theorem distinct_of_slots (h : (rq.slots.map Task.pid).Nodup) : rq.Distinct := by
  intro i j t u hi hj hp
  rw [slots, List.map_map] at h
  have he := List.inj_on_of_nodup_map h (mem_entries.mpr hi) (mem_entries.mpr hj) hp
  exact congrArg Prod.fst he

section Distinct

variable {rq : RunQueue} (hd : rq.Distinct)

include hd

variable {t : Task}

theorem Distinct.eq {u : Task} (ht : t ∈ rq) (hu : u ∈ rq) (h : t.pid = u.pid) : t = u := by
  obtain ⟨i, hi⟩ := ht
  obtain ⟨j, hj⟩ := hu
  obtain rfl := hd i j t u hi hj h
  exact Option.some.inj (hi.symm.trans hj)

theorem Distinct.findPid (ht : t ∈ rq) : rq.findPid t.pid = some t := by
  cases h : rq.findPid t.pid with
  | none => exact absurd rfl (findPid_eq_none.mp h t ht)
  | some =>
    obtain ⟨hu, hp⟩ := findPid_eq_some h
    rw [hd.eq hu ht hp]

theorem Distinct.findPid_iff {pid : Nat} : rq.findPid pid = some t ↔ t ∈ rq ∧ t.pid = pid := by
  refine ⟨findPid_eq_some, ?_⟩
  rintro ⟨ht, rfl⟩
  exact hd.findPid ht

/-- A change to one pid, as a change to every task. -/
theorem Distinct.modifyPid_eq (pid : Nat) (f : Task → Task) :
    rq.modifyPid pid f = rq.mapTasks fun t => if t.pid = pid then f t else t := by
  -- slot by slot: the slot with the pid is found by the lookup, and no other slot has it
  have key : rq.tasks.mapVals (fun _ t => if t.pid = pid then f t else t) =
      (rq.modifyPid pid f).tasks := by
    refine ext fun j => ?_
    rw [get?_mapVals, modifyPid]
    cases hi : rq.findPidIdx pid with
    | none =>
      cases hj : rq.tasks.get? j with
      | none => simp
      | some t => simp [findPidIdx_eq_none.mp hi t ⟨j, hj⟩]
    | some i =>
      obtain ⟨t, ht, hp⟩ := findPidIdx_eq_some hi
      simp only [modifyAt, get?_modify]
      by_cases hji : j = i
      · subst hji
        simp [ht, hp]
      rw [if_neg hji]
      cases hj : rq.tasks.get? j with
      | none => rfl
      | some u =>
        have hne : u.pid ≠ pid := fun h => hji (hd j i u t hj ht (h.trans hp.symm))
        simp [hne]
  rw [mapTasks, key, modifyPid]
  split <;> rfl

theorem Distinct.mapTasks {g : Task → Task} (hg : ∀ t ∈ rq, (g t).pid = t.pid) :
    (rq.mapTasks g).Distinct := by
  intro i j t u ht hu hp
  simp only [RunQueue.mapTasks, get?_mapVals, Option.map_eq_some_iff] at ht hu
  obtain ⟨t', ht', rfl⟩ := ht
  obtain ⟨u', hu', rfl⟩ := hu
  rw [hg t' ⟨i, ht'⟩, hg u' ⟨j, hu'⟩] at hp
  exact hd i j t' u' ht' hu' hp

theorem Distinct.remove (i : Nat) : (rq.remove i).Distinct := by
  unfold RunQueue.remove
  split
  · intro j k t u hj hk hp
    simp only [get?_erase] at hj hk
    split at hj <;> split at hk <;> try contradiction
    exact hd j k t u hj hk hp
  · exact hd

/-- What is left after a task was removed. -/
theorem Distinct.mem_remove {i : Nat} {u : Task} (h : rq.tasks.get? i = some t) :
    u ∈ rq.remove i ↔ u ∈ rq ∧ u.pid ≠ t.pid := by
  simp only [RunQueue.remove, h]
  constructor
  · rintro ⟨j, hj⟩
    simp only [get?_erase] at hj
    split at hj
    · contradiction
    · next hji => exact ⟨⟨j, hj⟩, fun hp => hji (hd j i u t hj h hp)⟩
  · rintro ⟨⟨j, hj⟩, hp⟩
    refine ⟨j, ?_⟩
    simp only [get?_erase]
    rw [if_neg, hj]
    rintro rfl
    cases hj.symm.trans h
    exact hp rfl

theorem Distinct.enqueue {rq' : RunQueue} (h : rq.enqueue t = some rq')
    (hnew : ∀ u ∈ rq, u.pid ≠ t.pid) : rq'.Distinct := by
  unfold RunQueue.enqueue at h
  split at h
  · cases h
    intro i j u v hu hv hp
    simp only [get?_insert] at hu hv
    split at hu <;> split at hv
    · omega
    · cases hu
      exact absurd hp.symm (hnew v ⟨j, hv⟩)
    · cases hv
      exact absurd hp (hnew u ⟨i, hu⟩)
    · exact hd i j u v hu hv hp
  · contradiction

end Distinct

theorem mem_mapTasks : t ∈ rq.mapTasks g ↔ ∃ u ∈ rq, g u = t := by
  constructor
  · rintro ⟨i, hi⟩
    simp only [mapTasks, get?_mapVals, Option.map_eq_some_iff] at hi
    obtain ⟨u, hu, rfl⟩ := hi
    exact ⟨u, ⟨i, hu⟩, rfl⟩
  · rintro ⟨u, ⟨i, hi⟩, rfl⟩
    exact ⟨i, by simp [mapTasks, hi]⟩

theorem mem_enqueue {rq' : RunQueue} {u : Task} (h : rq.enqueue t = some rq') :
    u ∈ rq' ↔ u = t ∨ u ∈ rq := by
  obtain ⟨-, h⟩ := Option.ite_none_right_eq_some.mp h
  cases h
  constructor
  · rintro ⟨i, hi⟩
    simp only [get?_insert] at hi
    split at hi
    · exact .inl (Option.some.inj hi).symm
    · exact .inr ⟨i, hi⟩
  · rintro (rfl | ⟨i, hi⟩)
    · exact ⟨rq.tasks.freeKey, by simp⟩
    refine ⟨i, ?_⟩
    simp only [get?_insert]
    rw [if_neg, hi]
    rintro rfl
    simp at hi

@[simp] theorem mapTasks_mapTasks (rq : RunQueue) (g h : Task → Task) :
    (rq.mapTasks g).mapTasks h = rq.mapTasks fun t => h (g t) := by
  have : ((rq.tasks.mapVals fun _ => g).mapVals fun _ => h) = rq.tasks.mapVals fun _ t => h (g t) :=
    ext fun k => by simp [Function.comp_def]
  simp [mapTasks, this]

theorem mapTasks_congr {h : Task → Task} (hgh : ∀ t ∈ rq, g t = h t) :
    rq.mapTasks g = rq.mapTasks h := by
  have : (rq.tasks.mapVals fun _ => g) = rq.tasks.mapVals fun _ => h := by
    refine ext fun k => ?_
    rw [get?_mapVals, get?_mapVals]
    cases hk : rq.tasks.get? k with
    | none => rfl
    | some t => simp [hgh t ⟨k, hk⟩]
  simp [mapTasks, this]

@[simp] theorem mapTasks_id (rq : RunQueue) : (rq.mapTasks fun t => t) = rq := by
  have : (rq.tasks.mapVals fun _ t => t) = rq.tasks := ext fun k => by simp
  simp [mapTasks, this]

/-- A pid keeps finding its task when pids are kept. -/
theorem findPid_mapTasks (hd : rq.Distinct) (hg : ∀ t ∈ rq, (g t).pid = t.pid) (pid : Nat) :
    (rq.mapTasks g).findPid pid = (rq.findPid pid).map g := by
  cases h : rq.findPid pid with
  | none =>
    rw [Option.map_none, findPid_eq_none]
    intro t ht
    obtain ⟨u, hu, rfl⟩ := mem_mapTasks.mp ht
    rw [hg u hu]
    exact findPid_eq_none.mp h u hu
  | some t =>
    obtain ⟨ht, rfl⟩ := findPid_eq_some h
    rw [Option.map_some, (hd.mapTasks hg).findPid_iff]
    exact ⟨mem_mapTasks.mpr ⟨t, ht, rfl⟩, hg t ht⟩

end RunQueue

end Leandros.Sched
