import Mathlib

/-!
# Leandros.Lib.OrdMap

**Ordered maps** with natural keys, kept as a strictly sorted association list:
what a `BTreeMap` is, with its iteration order.

* `get?`, `insert`, `erase`, `modify`, `mapVals` with one lookup lemma each.
* `ext` — a map is determined by its lookups.
* `find?`, `findKey?`, `freeKey` — the first entry whose value passes a test, and the
  least key not in use: a slot table is a map from slot numbers.
* `total` — the sum of a weight over all entries, with the exact change each
  operation makes to it; a count is a total of zeros and ones.
-/

namespace Leandros

open Prod (fst)
open List (filter_cons map_cons mem_cons mem_map pairwise_cons sum_cons)

/-- Two sums that differ in one term. -/
theorem sum_change {f f' : Nat → Nat} {N k : Nat} (hk : k < N) (h : ∀ j ≠ k, f' j = f j) :
    ∑ j ∈ Finset.range N, f' j + f k = ∑ j ∈ Finset.range N, f j + f' k := by
  have hmem := Finset.mem_range.mpr hk
  rw [← Finset.sum_erase_add _ _ hmem, ← Finset.sum_erase_add _ f hmem, Nat.add_right_comm,
    Finset.sum_congr rfl fun j hj => h j (Finset.ne_of_mem_erase hj)]

/-- A map from naturals, sorted by key. -/
structure OrdMap (V : Type*) where
  entries : List (Nat × V)
  sorted : entries.Pairwise fun a b => a.1 < b.1

namespace OrdMap

variable {V W : Type*}

/-! ### Lists of entries -/

/-- The value stored under `k`. -/
def lookupL (k : Nat) : List (Nat × V) → Option V
  | [] => none
  | e :: l => if e.1 = k then some e.2 else lookupL k l

def insertL (k : Nat) (v : V) : List (Nat × V) → List (Nat × V)
  | [] => [(k, v)]
  | e :: l =>
    if k < e.1 then (k, v) :: e :: l
    else if k = e.1 then (k, v) :: l
    else e :: insertL k v l

def eraseL (k : Nat) (l : List (Nat × V)) : List (Nat × V) := l.filter fun e => e.1 != k

variable {k : Nat} {v : V} {l : List (Nat × V)} {m : OrdMap V} {p : V → Bool}

theorem mem_insertL {e : Nat × V} (h : e ∈ insertL k v l) : e = (k, v) ∨ e ∈ l := by
  induction l with
  | nil => exact .inl (by simpa [insertL] using h)
  | cons x l ih =>
    rw [insertL] at h
    split at h
    · exact mem_cons.mp h
    split at h
    · exact (mem_cons.mp h).imp_right (List.mem_cons_of_mem _)
    · rcases mem_cons.mp h with rfl | h
      · exact .inr (.head _)
      · exact (ih h).imp_right (List.mem_cons_of_mem _)

theorem sorted_insertL
    (h : l.Pairwise fun a b => a.1 < b.1) : (insertL k v l).Pairwise fun a b => a.1 < b.1 := by
  induction l with
  | nil => simp [insertL]
  | cons x l ih =>
    obtain ⟨hx, hl⟩ := pairwise_cons.mp h
    rw [insertL]
    split
    · next hk =>
      refine pairwise_cons.mpr ⟨fun e he => ?_, h⟩
      rcases mem_cons.mp he with rfl | he
      · exact hk
      · exact hk.trans (hx e he)
    · split
      · next hk => exact pairwise_cons.mpr ⟨fun e he => hk ▸ hx e he, hl⟩
      refine pairwise_cons.mpr ⟨fun e he => ?_, ih hl⟩
      rcases mem_insertL he with rfl | he
      · omega
      · exact hx e he

theorem lookupL_insertL (k j : Nat) (v : V) (l : List (Nat × V)) :
    lookupL j (insertL k v l) = if j = k then some v else lookupL j l := by
  induction l with
  | nil =>
    simp only [insertL, lookupL]
    by_cases hj : j = k
    · rw [if_pos hj.symm, if_pos hj]
    · rw [if_neg (Ne.symm hj), if_neg hj]
  | cons x l ih =>
    rw [insertL]
    by_cases hj : j = k
    · subst hj
      split
      · simp [lookupL]
      · split
        · simp [lookupL]
        · next hne => rw [lookupL, if_neg (Ne.symm hne), ih, if_pos rfl, if_pos rfl]
    · rw [if_neg hj] at ih ⊢
      split
      · simp [lookupL, if_neg (Ne.symm hj)]
      · split
        · next he => simp [lookupL, if_neg (Ne.symm hj), if_neg (he ▸ Ne.symm hj)]
        · rw [lookupL, lookupL, ih]

theorem lookupL_eq_none (h : ∀ e ∈ l, e.1 ≠ k) : lookupL k l = none := by
  induction l with
  | nil => rfl
  | cons x l ih =>
    rw [lookupL, if_neg (h x (.head _))]
    exact ih fun e he => h e (.tail _ he)

theorem mem_of_lookupL (h : lookupL k l = some v) : (k, v) ∈ l := by
  induction l with
  | nil => simp [lookupL] at h
  | cons x l ih =>
    rw [lookupL] at h
    split at h
    · next hx =>
      cases h
      rw [← hx]
      exact .head _
    · exact List.mem_cons_of_mem _ (ih h)

theorem lookupL_of_mem
    (hs : l.Pairwise fun a b => a.1 < b.1) (h : (k, v) ∈ l) : lookupL k l = some v := by
  induction l with
  | nil => simp at h
  | cons x l ih =>
    obtain ⟨hx, hl⟩ := pairwise_cons.mp hs
    rcases mem_cons.mp h with rfl | h
    · simp [lookupL]
    · rw [lookupL, if_neg (hx _ h).ne]
      exact ih hl h

/-! ### The map -/

def empty : OrdMap V := ⟨[], List.Pairwise.nil⟩

def get? (m : OrdMap V) (k : Nat) : Option V := lookupL k m.entries

def insert (m : OrdMap V) (k : Nat) (v : V) : OrdMap V :=
  ⟨insertL k v m.entries, sorted_insertL m.sorted⟩

def erase (m : OrdMap V) (k : Nat) : OrdMap V := ⟨eraseL k m.entries, m.sorted.filter _⟩

/-- Change the value under `k`, if there is one. -/
def modify (m : OrdMap V) (k : Nat) (f : V → V) : OrdMap V :=
  match m.get? k with
  | some v => m.insert k (f v)
  | none => m

/-- Change every value. -/
def mapVals (m : OrdMap V) (f : Nat → V → W) : OrdMap W :=
  ⟨m.entries.map fun e => (e.1, f e.1 e.2), by
    rw [List.pairwise_map]
    exact m.sorted⟩

def isEmpty (m : OrdMap V) : Bool := m.entries.isEmpty

/-- Keep the entries `sel` accepts. -/
def retain (m : OrdMap V) (sel : Nat → V → Bool) : OrdMap V :=
  ⟨m.entries.filter fun e => sel e.1 e.2, m.sorted.filter _⟩

/-- The keys from `k` on, in order. -/
def keysFrom (m : OrdMap V) (k : Nat) : List Nat :=
  (m.entries.map fst).filter fun j => decide (k ≤ j)

@[simp] theorem get?_empty (k : Nat) : (empty : OrdMap V).get? k = none := rfl

@[simp] theorem get?_insert (m : OrdMap V) (k j : Nat) (v : V) :
    (m.insert k v).get? j = if j = k then some v else m.get? j :=
  lookupL_insertL k j v m.entries

@[simp] theorem get?_modify (m : OrdMap V) (k j : Nat) (f : V → V) :
    (m.modify k f).get? j = if j = k then (m.get? k).map f else m.get? j := by
  rw [modify]
  cases h : m.get? k with
  | some => simp
  | none =>
    show m.get? j = if j = k then none else m.get? j
    by_cases hj : j = k
    · rw [if_pos hj, hj, h]
    · rw [if_neg hj]

@[simp] theorem get?_mapVals (m : OrdMap V) (f : Nat → V → W) (k : Nat) :
    (m.mapVals f).get? k = (m.get? k).map (f k) := by
  obtain ⟨l, hl⟩ := m
  simp only [get?, mapVals]
  clear hl
  induction l with
  | nil => rfl
  | cons x l ih =>
    simp only [map_cons, lookupL]
    split
    · next hx => simp [hx]
    · exact ih

@[simp] theorem get?_retain (m : OrdMap V) (sel : Nat → V → Bool) (k : Nat) :
    (m.retain sel).get? k = (m.get? k).filter (sel k) := by
  obtain ⟨l, hl⟩ := m
  simp only [get?, retain]
  induction l with
  | nil => rfl
  | cons x l ih =>
    obtain ⟨hx, hl'⟩ := pairwise_cons.mp hl
    rw [filter_cons, lookupL]
    by_cases hk : x.1 = k
    · rw [if_pos hk, Option.filter_some, ← hk]
      split
      · rw [lookupL, if_pos rfl]
      · exact lookupL_eq_none fun e he => (hx e (List.mem_of_mem_filter he)).ne'
    · rw [if_neg hk, ← ih hl']
      split
      · rw [lookupL, if_neg hk]
      · rfl

@[simp] theorem get?_erase (m : OrdMap V) (k j : Nat) :
    (m.erase k).get? j = if j = k then none else m.get? j := by
  refine (m.get?_retain (fun i _ => i != k) j).trans ?_
  cases m.get? j <;> by_cases hj : j = k <;> simp [hj]

theorem mem_entries : (k, v) ∈ m.entries ↔ m.get? k = some v :=
  ⟨lookupL_of_mem m.sorted, mem_of_lookupL⟩

theorem mem_keysFrom {j : Nat} : j ∈ m.keysFrom k ↔ k ≤ j ∧ ∃ v, m.get? j = some v := by
  simp only [keysFrom, List.mem_filter, mem_map, decide_eq_true_eq, ← mem_entries]
  constructor
  · rintro ⟨⟨e, he, rfl⟩, hk⟩
    exact ⟨hk, e.2, he⟩
  · rintro ⟨hk, v, hv⟩
    exact ⟨⟨(j, v), hv, rfl⟩, hk⟩

theorem nodup_keysFrom (m : OrdMap V) (k : Nat) : (m.keysFrom k).Nodup := by
  refine List.Nodup.filter _ ?_
  have h : (m.entries.map fst).Pairwise (· < ·) := by
    rw [List.pairwise_map]
    exact m.sorted
  exact h.imp fun hab => hab.ne

/-! ### Extensionality -/

theorem entries_eq_of_lookupL {l' : List (Nat × V)} (hs : l.Pairwise fun a b => a.1 < b.1)
    (hs' : l'.Pairwise fun a b => a.1 < b.1) (h : ∀ k, lookupL k l = lookupL k l') : l = l' := by
  have hmem : ∀ e, e ∈ l ↔ e ∈ l' := by
    intro e
    constructor
    · intro he
      exact mem_of_lookupL ((h e.1).symm.trans (lookupL_of_mem hs he))
    · intro he
      exact mem_of_lookupL ((h e.1).trans (lookupL_of_mem hs' he))
  have hnd : ∀ {l : List (Nat × V)}, l.Pairwise (fun a b => a.1 < b.1) → l.Nodup :=
    fun hs => hs.imp fun hab heq => absurd (congrArg fst heq) hab.ne
  have hperm : l.Perm l' := (List.perm_ext_iff_of_nodup (hnd hs) (hnd hs')).mpr hmem
  exact hperm.eq_of_pairwise (fun a b _ _ hab hba => absurd (hab.trans hba) (lt_irrefl _)) hs hs'

/-- A map is determined by its lookups. -/
theorem ext {m' : OrdMap V} (h : ∀ k, m.get? k = m'.get? k) : m = m' := by
  obtain ⟨l, hs⟩ := m
  obtain ⟨l', hs'⟩ := m'
  have : l = l' := entries_eq_of_lookupL hs hs' h
  subst this
  rfl

/-! ### Searching -/

/-- The first entry whose value passes `p`. -/
def find? (m : OrdMap V) (p : V → Bool) : Option (Nat × V) := m.entries.find? fun e => p e.2

/-- The first key whose value passes `p`. -/
def findKey? (m : OrdMap V) (p : V → Bool) : Option Nat := (m.find? p).map fst

/-- The least key from `k` on that is not in use. -/
def freeL : Nat → List (Nat × V) → Nat
  | k, [] => k
  | k, e :: l => if e.1 = k then freeL (k + 1) l else k

/-- The least key not in use. -/
def freeKey (m : OrdMap V) : Nat := freeL 0 m.entries

theorem find?_eq_some {e : Nat × V} (h : m.find? p = some e) :
    m.get? e.1 = some e.2 ∧ p e.2 = true := by
  have hp := List.find?_some h
  exact ⟨mem_entries.mp (List.mem_of_find?_eq_some h), hp⟩

theorem find?_eq_none : m.find? p = none ↔ ∀ k v, m.get? k = some v → p v = false := by
  rw [find?, List.find?_eq_none]
  constructor
  · intro h k v hv
    exact Bool.eq_false_iff.mpr (h (k, v) (mem_entries.mpr hv))
  · intro h e he
    exact Bool.eq_false_iff.mp (h e.1 e.2 (mem_entries.mp he))

theorem findKey?_eq_some (h : m.findKey? p = some k) : ∃ v, m.get? k = some v ∧ p v = true := by
  obtain ⟨e, he, rfl⟩ := Option.map_eq_some_iff.mp h
  exact ⟨e.2, find?_eq_some he⟩

theorem findKey?_eq_none : m.findKey? p = none ↔ ∀ k v, m.get? k = some v → p v = false := by
  rw [findKey?, Option.map_eq_none_iff, find?_eq_none]

/-- No key before the first passes. -/
theorem findKey?_lt {j : Nat} {w : V} (h : m.findKey? p = some k) (hj : j < k)
    (hw : m.get? j = some w) : p w = false := by
  obtain ⟨e, he, rfl⟩ := Option.map_eq_some_iff.mp h
  obtain ⟨-, as, bs, hsplit, hno⟩ := List.find?_eq_some_iff_append.mp he
  have hs := m.sorted
  have hmem := mem_entries.mpr hw
  rw [hsplit] at hs hmem
  rcases List.mem_append.mp hmem with ha | hb
  · simpa using hno _ ha
  rcases mem_cons.mp hb with rfl | hb
  · exact absurd hj (lt_irrefl _)
  · have := (pairwise_cons.mp (List.pairwise_append.mp hs).2.1).1 _ hb
    exact absurd hj (by simpa using this.le)

theorem lookupL_freeL (k : Nat) (l : List (Nat × V)) (hs : l.Pairwise fun a b => a.1 < b.1)
    (hk : ∀ e ∈ l, k ≤ e.1) : lookupL (freeL k l) l = none ∧ k ≤ freeL k l := by
  induction l generalizing k with
  | nil => exact ⟨rfl, le_rfl⟩
  | cons x l ih =>
    obtain ⟨hx, hl⟩ := pairwise_cons.mp hs
    rw [freeL]
    by_cases hxk : x.1 = k
    · rw [if_pos hxk, lookupL]
      obtain ⟨hnone, hle⟩ := ih (k + 1) hl fun e he => by have := hx e he; omega
      rw [if_neg (by omega)]
      exact ⟨hnone, by omega⟩
    · rw [if_neg hxk]
      have hlt : k < x.1 := lt_of_le_of_ne (hk x (.head _)) (Ne.symm hxk)
      refine ⟨lookupL_eq_none fun e he => ?_, le_rfl⟩
      rcases mem_cons.mp he with rfl | he
      · exact hlt.ne'
      · exact (hlt.trans (hx e he)).ne'

@[simp] theorem get?_freeKey (m : OrdMap V) : m.get? m.freeKey = none :=
  (lookupL_freeL 0 m.entries m.sorted fun _ _ => Nat.zero_le _).1

/-! ### Totals -/

/-- The sum of a weight over all entries. -/
def total (g : Nat → V → Nat) (m : OrdMap V) : Nat := (m.entries.map fun e => g e.1 e.2).sum

/-- The weight of what is stored under one key. -/
def weight (g : Nat → V → Nat) (k : Nat) : Option V → Nat
  | some v => g k v
  | none => 0

section

variable (g : Nat → V → Nat)

@[simp] theorem weight_none (k : Nat) : weight g k none = 0 := rfl

@[simp] theorem weight_some (k : Nat) (v : V) : weight g k (some v) = g k v := rfl

theorem sum_eq_range {N : Nat} (l : List (Nat × V))
    (hs : l.Pairwise fun a b => a.1 < b.1) (hN : ∀ e ∈ l, e.1 < N) :
    (l.map fun e => g e.1 e.2).sum = ∑ k ∈ Finset.range N, weight g k (lookupL k l) := by
  induction l with
  | nil => simp [lookupL]
  | cons x l ih =>
    obtain ⟨hx, hl⟩ := pairwise_cons.mp hs
    have hnone : lookupL x.1 l = none := lookupL_eq_none fun e he => (hx e he).ne'
    have hsplit : ∀ k, weight g k (lookupL k (x :: l)) =
        (if k = x.1 then g x.1 x.2 else 0) + weight g k (lookupL k l) := by
      intro k
      rw [lookupL]
      by_cases hk : x.1 = k
      · rw [if_pos hk, if_pos hk.symm, ← hk, hnone, weight_some, weight_none, add_zero]
      · rw [if_neg hk, if_neg (Ne.symm hk), zero_add]
    rw [map_cons, sum_cons, ih hl fun e he => hN e (.tail _ he),
      Finset.sum_congr rfl fun k _ => hsplit k, Finset.sum_add_distrib,
      Finset.sum_ite_eq' (Finset.range N) x.1, if_pos]
    exact Finset.mem_range.mpr (hN x (.head _))

/-- Any range that holds all keys will do. -/
theorem total_eq_sum (m : OrdMap V) :
    ∃ n, ∀ N ≥ n, total g m = ∑ k ∈ Finset.range N, weight g k (m.get? k) := by
  refine ⟨(m.entries.map fst).sum + 1, fun N hN => sum_eq_range g _ m.sorted fun e he => ?_⟩
  have := List.single_le_sum (fun _ _ => Nat.zero_le _) e.1 (List.mem_map_of_mem he)
  omega

/-- What is stored under one key changes. -/
theorem total_change {m m' : OrdMap V} {k : Nat} (h : ∀ j ≠ k, m'.get? j = m.get? j) :
    total g m' + weight g k (m.get? k) = total g m + weight g k (m'.get? k) := by
  obtain ⟨n, hn⟩ := total_eq_sum g m
  obtain ⟨n', hn'⟩ := total_eq_sum g m'
  rw [hn (n + n' + k + 1) (by omega), hn' (n + n' + k + 1) (by omega)]
  exact sum_change (by omega) fun j hj => congrArg (weight g j) (h j hj)

theorem total_insert (m : OrdMap V) (k : Nat) (v : V) :
    total g (m.insert k v) + weight g k (m.get? k) = total g m + g k v := by
  simpa using total_change g fun j hj => (m.get?_insert k j v).trans (if_neg hj)

theorem total_erase (m : OrdMap V) (k : Nat) :
    total g (m.erase k) + weight g k (m.get? k) = total g m := by
  simpa using total_change g fun j hj => (m.get?_erase k j).trans (if_neg hj)

theorem total_modify (m : OrdMap V) (k : Nat) (f : V → V) :
    total g (m.modify k f) + weight g k (m.get? k) = total g m + weight g k ((m.get? k).map f) := by
  simpa using total_change g fun j hj => (m.get?_modify k j f).trans (if_neg hj)

end

/-- A map with few entries has a small free key. -/
theorem freeKey_le (m : OrdMap V) : m.freeKey ≤ total (fun _ _ => 1) m := by
  have key : ∀ k (l : List (Nat × V)), freeL k l ≤ k + (l.map fun _ => 1).sum := by
    intro k l
    induction l generalizing k with
    | nil => exact le_rfl
    | cons x l ih =>
      rw [freeL]
      split
      · have := ih (k + 1)
        simp only [map_cons, sum_cons]
        omega
      · exact Nat.le_add_right _ _
  have := key 0 m.entries
  rwa [Nat.zero_add] at this

variable {g : Nat → V → Nat}

theorem total_eq_zero :
    total g m = 0 ↔ ∀ k v, m.get? k = some v → g k v = 0 := by
  rw [total, List.sum_eq_zero_iff]
  constructor
  · exact fun h k v hv => h _ (mem_map.mpr ⟨(k, v), mem_entries.mpr hv, rfl⟩)
  · intro h x hx
    obtain ⟨e, he, rfl⟩ := mem_map.mp hx
    exact h e.1 e.2 (mem_entries.mp he)

/-- A total grows with the weight of what is stored under each key. -/
theorem total_le {g' : Nat → W → Nat} {m' : OrdMap W}
    (h : ∀ k, weight g k (m.get? k) ≤ weight g' k (m'.get? k)) : total g m ≤ total g' m' := by
  obtain ⟨n, hn⟩ := total_eq_sum g m
  obtain ⟨n', hn'⟩ := total_eq_sum g' m'
  rw [hn _ (le_max_left n n'), hn' _ (le_max_right n n')]
  exact Finset.sum_le_sum fun k _ => h k

/-- A total only depends on what is stored under each key. -/
theorem total_congr {g' : Nat → W → Nat} {m' : OrdMap W}
    (h : ∀ k, weight g k (m.get? k) = weight g' k (m'.get? k)) : total g m = total g' m' :=
  le_antisymm (total_le fun k => (h k).le) (total_le fun k => (h k).ge)

end OrdMap

end Leandros
