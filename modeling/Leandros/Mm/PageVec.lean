import Leandros.Lib.OrdMap
import Leandros.Mm.Buddy.Model

/-!
# Leandros.Mm.PageVec

The per-VMA table of demand-faulted frames (`mm/src/pagevec.rs`): a vector in
chunks of 512 slots, where a chunk grows only up to the highest slot written in
it. A slot that holds 0 has no frame.

A table knows that it has a chunk for every started 512 slots. `resize` keeps that as long as the
sum `n + CHUNK - 1` does not wrap; `resized` is the source's own sum.

**`PageVec.slot`** is what a reader of the table sees; each operation has one
lemma that says what it does to the slots, and nothing above this module looks
at chunks. **`PageVec.total`** adds up a weight over the slots: the number of
frames, or of the slots that hold a given frame. `refines_vec`: a table is a dense
vector to everyone who calls it, up to the number of slots that a `Vec<usize>` can have.
-/

namespace Leandros.Mm

open Option (bind_some map map_map map_some)
open List (filter_append getD_eq_default getD_eq_getElem?_getD getElem?_map length_append
  length_drop length_modify length_take map_cons map_set mem_filter range replicate sum_cons
  take_nil)

/-- `CHUNK`. -/
def chunkLen : Nat := 512

/-- Chunk `c`; one that does not exist is empty. -/
def chunkAt (chunks : List (List Nat)) (c : Nat) : List Nat := chunks.getD c []

/-- `chunks[c][j]` is slot `c * CHUNK + j`; slots past a chunk's length read as 0. -/
structure PageVec where
  len : Nat
  chunks : List (List Nat)
  /-- One chunk for every started `CHUNK` slots. -/
  dir : chunks.length = (len + chunkLen - 1) / chunkLen
  /-- No chunk is longer than `CHUNK`, or reaches past the end. -/
  fits : ∀ c, c < chunks.length → (chunkAt chunks c).length ≤ chunkLen ∧
    c * chunkLen + (chunkAt chunks c).length ≤ len

namespace PageVec

variable {chunks : List (List Nat)} {v : PageVec} {i : Nat}

theorem chunkAt_of_le {c : Nat} (h : chunks.length ≤ c) :
    chunkAt chunks c = [] := getD_eq_default _ _ h

theorem chunkAt_drop (chunks : List (List Nat)) (n c : Nat) :
    chunkAt (chunks.drop n) c = chunkAt chunks (n + c) := by
  rw [chunkAt, chunkAt, getD_eq_getElem?_getD, getD_eq_getElem?_getD, List.getElem?_drop]

theorem chunkAt_modify (chunks : List (List Nat)) (i c : Nat) (f : List Nat → List Nat)
    (h : c < chunks.length) :
    chunkAt (chunks.modify i f) c = if i = c then f (chunkAt chunks c) else chunkAt chunks c := by
  rw [chunkAt, chunkAt, getD_eq_getElem?_getD, getD_eq_getElem?_getD, List.getElem?_modify,
    List.getElem?_eq_getElem h]
  split <;> rfl

/-! ### Reading -/

/-- The slot `i` of a list of chunks. -/
def slotOf (chunks : List (List Nat)) (i : Nat) : Nat :=
  (chunkAt chunks (i / chunkLen)).getD (i % chunkLen) 0

def get (v : PageVec) (i : Nat) : Option Nat :=
  if i ≥ v.len then none else some (slotOf v.chunks i)

/-- `get(i).copied().unwrap_or(0)`: the frame of page `i`, 0 if it has none. -/
def slot (v : PageVec) (i : Nat) : Nat := (v.get i).getD 0

theorem slot_of_le (h : v.len ≤ i) : v.slot i = 0 := by
  rw [slot, get, if_pos h]
  rfl

/-- No chunk holds anything past the end. -/
theorem slotOf_of_le (h : v.len ≤ i) : slotOf v.chunks i = 0 := by
  refine getD_eq_default _ _ ?_
  by_cases hc : i / chunkLen < v.chunks.length
  · have hfit := (v.fits _ hc).2
    have hi := Nat.div_add_mod' i chunkLen
    omega
  · rw [chunkAt_of_le (by omega)]
    exact Nat.zero_le _

theorem slot_eq (v : PageVec) (i : Nat) : v.slot i = slotOf v.chunks i := by
  by_cases h : v.len ≤ i
  · rw [slot_of_le h, slotOf_of_le h]
  · rw [slot, get, if_neg h]
    rfl

theorem lt_of_slot (h : v.slot i ≠ 0) : i < v.len := by
  by_contra hle
  exact h (slot_of_le (by omega))

theorem get_eq_some {p : Nat} : v.get i = some p ↔ i < v.len ∧ v.slot i = p := by
  by_cases h : v.len ≤ i
  · rw [get, if_pos h]
    exact ⟨nofun, fun hlt => absurd hlt.1 (by omega)⟩
  · rw [slot_eq, get, if_neg h, Option.some.injEq]
    exact ⟨fun hp => ⟨by omega, hp⟩, And.right⟩

def new : PageVec := ⟨0, [], rfl, fun _ h => absurd h (Nat.not_lt_zero _)⟩

@[simp] theorem slot_new (i : Nat) : new.slot i = 0 := slot_of_le (Nat.zero_le _)

/-! ### Resizing -/

/-- The last chunk that `resize` keeps is cut, so that regrown slots read 0. -/
def cutChunks (chunks : List (List Nat)) (len n : Nat) : List (List Nat) :=
  if n < len ∧ n % chunkLen ≠ 0 then chunks.modify (n / chunkLen) (·.take (n % chunkLen))
  else chunks

/-- Drop the chunks past the first `k`, or add empty ones. -/
def resizeChunks (chunks : List (List Nat)) (len n k : Nat) : List (List Nat) :=
  (cutChunks chunks len n).take k ++ replicate (k - chunks.length) []

theorem length_cutChunks (chunks : List (List Nat)) (len n : Nat) :
    (cutChunks chunks len n).length = chunks.length := by
  unfold cutChunks
  split
  · exact length_modify ..
  · rfl

theorem length_resizeChunks (chunks : List (List Nat)) (len n k : Nat) :
    (resizeChunks chunks len n k).length = k := by
  rw [resizeChunks, length_append, length_take, List.length_replicate, length_cutChunks]
  omega

theorem chunkAt_resizeChunks {len n c k : Nat} (hw : c < k) :
    chunkAt (resizeChunks chunks len n k) c =
      if n < len ∧ n % chunkLen ≠ 0 ∧ c = n / chunkLen then (chunkAt chunks c).take (n % chunkLen)
      else chunkAt chunks c := by
  by_cases hlt : c < chunks.length
  · have hkeep : chunkAt (resizeChunks chunks len n k) c = chunkAt (cutChunks chunks len n) c := by
      rw [chunkAt, chunkAt, getD_eq_getElem?_getD, getD_eq_getElem?_getD, resizeChunks,
        List.getElem?_append_left (by rw [length_take, length_cutChunks]; omega),
        List.getElem?_take_of_lt hw]
    rw [hkeep, cutChunks]
    by_cases hcut : n < len ∧ n % chunkLen ≠ 0
    · rw [if_pos hcut, chunkAt_modify _ _ _ _ hlt]
      by_cases hcn : n / chunkLen = c
      · rw [if_pos hcn, if_pos ⟨hcut.1, hcut.2, hcn.symm⟩]
      · rw [if_neg hcn, if_neg fun hx => hcn hx.2.2.symm]
    · rw [if_neg hcut, if_neg fun hx => hcut ⟨hx.1, hx.2.1⟩]
  · -- A chunk that `resize` adds.
    have hnil : chunkAt (resizeChunks chunks len n k) c = [] := by
      rw [chunkAt, getD_eq_getElem?_getD, resizeChunks, List.getElem?_append_right
        (by rw [length_take, length_cutChunks]; omega), List.getElem?_replicate]
      split <;> rfl
    rw [hnil, chunkAt_of_le (show chunks.length ≤ c by omega), take_nil, ite_self]

/-- `resize`, with as many chunks as `n` slots take. -/
def resize (v : PageVec) (n : Nat) : PageVec where
  len := n
  chunks := resizeChunks v.chunks v.len n ((n + chunkLen - 1) / chunkLen)
  dir := length_resizeChunks ..
  fits c hc := by
    rw [length_resizeChunks] at hc
    have hcn : c * chunkLen < n := by
      unfold chunkLen at *
      omega
    have hn := Nat.div_add_mod' n chunkLen
    rw [chunkAt_resizeChunks hc]
    by_cases hlt : c < v.chunks.length
    · obtain ⟨hlen, hfit⟩ := v.fits c hlt
      split
      · next hcut =>
        rw [length_take]
        refine ⟨by omega, ?_⟩
        rw [← hcut.2.2] at hn
        omega
      · next hcut =>
        refine ⟨hlen, ?_⟩
        by_cases hshrink : n < v.len ∧ n % chunkLen ≠ 0
        · have : c ≠ n / chunkLen := fun hx => hcut ⟨hshrink.1, hshrink.2, hx⟩
          unfold chunkLen at *
          omega
        · unfold chunkLen at *
          omega
    · rw [chunkAt_of_le (show v.chunks.length ≤ c by omega), take_nil, ite_self, List.length_nil]
      omega

@[simp] theorem len_resize (v : PageVec) (n : Nat) : (v.resize n).len = n := rfl

theorem slotOf_resizeChunks {len n : Nat} (hi : i < n) :
    slotOf (resizeChunks chunks len n ((n + chunkLen - 1) / chunkLen)) i = slotOf chunks i := by
  have hdiv := Nat.div_add_mod' i chunkLen
  have hw : i / chunkLen < (n + chunkLen - 1) / chunkLen := by
    unfold chunkLen at *
    omega
  rw [slotOf, slotOf, chunkAt_resizeChunks hw]
  split
  · next hcut =>
    have hn := Nat.div_add_mod' n chunkLen
    rw [hcut.2.2] at hdiv
    rw [getD_eq_getElem?_getD, List.getElem?_take_of_lt (by omega), ← getD_eq_getElem?_getD]
  · rfl

/-- **`resize`** keeps the slots below the new end; regrown slots read 0. -/
@[simp] theorem slot_resize (v : PageVec) (n i : Nat) :
    (v.resize n).slot i = if i < n then v.slot i else 0 := by
  split
  · next h => rw [slot_eq, slot_eq, resize, slotOf_resizeChunks h]
  · next h => exact slot_of_le (by simpa using h)

theorem slot_grow {n : Nat} (h : v.len ≤ n) (i : Nat) : (v.resize n).slot i = v.slot i := by
  rw [slot_resize]
  split
  · rfl
  · exact (slot_of_le (by omega)).symm

/-! ### Writing -/

/-- Slot `j` of a chunk, which grows up to it. -/
def setChunk (j p : Nat) (c : List Nat) : List Nat :=
  (c ++ replicate (j + 1 - c.length) 0).set j p

theorem length_setChunk (j p : Nat) (c : List Nat) : (setChunk j p c).length = max c.length (j + 1) := by
  simp only [setChunk, List.length_set, length_append, List.length_replicate]
  omega

theorem getD_pad (l : List Nat) (n i : Nat) : (l ++ replicate n 0).getD i 0 = l.getD i 0 := by
  rw [getD_eq_getElem?_getD, List.getElem?_append]
  split
  · exact getD_eq_getElem?_getD.symm
  · next hi =>
    rw [getD_eq_default _ _ (by omega), List.getElem?_replicate]
    split <;> rfl

theorem getD_setChunk (j p k : Nat) (c : List Nat) :
    (setChunk j p c).getD k 0 = if k = j then p else c.getD k 0 := by
  rw [setChunk, getD_eq_getElem?_getD, List.getElem?_set, length_append, List.length_replicate]
  by_cases h : j = k
  · rw [if_pos h, if_pos h.symm, if_pos (by omega)]
    rfl
  · rw [if_neg h, if_neg (Ne.symm h), ← getD_eq_getElem?_getD, getD_pad]

/-- `v[i] = p`, for a slot the table has. -/
def set (v : PageVec) (i p : Nat) : PageVec :=
  if h : i < v.len then
    { len := v.len
      chunks := v.chunks.modify (i / chunkLen) (setChunk (i % chunkLen) p)
      dir := by rw [length_modify, v.dir]
      fits := fun c hc => by
        rw [length_modify] at hc
        obtain ⟨hlen, hfit⟩ := v.fits c hc
        rw [chunkAt_modify _ _ _ _ hc]
        split
        · next hi =>
          rw [length_setChunk]
          have hmod := Nat.mod_lt i (show 0 < chunkLen by decide)
          have hdiv := Nat.div_add_mod' i chunkLen
          rw [hi] at hdiv
          exact ⟨by omega, by omega⟩
        · exact ⟨hlen, hfit⟩ }
  else v

@[simp] theorem len_set (v : PageVec) (i p : Nat) : (v.set i p).len = v.len := by
  unfold set
  split <;> rfl

theorem slot_set (h : i < v.len) (p j : Nat) :
    (v.set i p).slot j = if j = i then p else v.slot j := by
  have hi := Nat.div_add_mod' i chunkLen
  have hj := Nat.div_add_mod' j chunkLen
  by_cases hjl : j < v.len
  · rw [slot_eq, slot_eq, set, dif_pos h, slotOf, slotOf, chunkAt_modify]
    · split
      · next hdiv =>
        rw [getD_setChunk]
        rw [hdiv] at hi
        by_cases hji : j = i
        · rw [if_pos hji, if_pos (by rw [hji])]
        · rw [if_neg hji, if_neg (by omega)]
      · next hdiv => rw [if_neg (by rintro rfl; exact hdiv rfl)]
    · rw [v.dir]
      unfold chunkLen
      omega
  · rw [slot_of_le (by rw [len_set]; omega), if_neg (by omega), slot_of_le (by omega)]

/-! ### The frames of a table -/

/-- Every slot that a chunk holds, with its index. -/
def held (chunks : List (List Nat)) : List (Nat × Nat) :=
  chunks.zipIdx.flatMap fun e => e.1.zipIdx.map fun q => (e.2 * chunkLen + q.2, q.1)

/-- `present`: the non-zero slots with their indices. -/
def present (v : PageVec) : List (Nat × Nat) := (held v.chunks).filter fun e => e.2 != 0

/-- The frames of the table. -/
def frames (v : PageVec) : List Nat := v.present.map (·.2)

def countPresent (v : PageVec) : Nat := v.present.length

/-- Zero slots at the end are not present. -/
theorem filter_range {s : Nat → Nat} {m n : Nat} (hmn : m ≤ n) (hs : ∀ i, m ≤ i → s i = 0) (a : Nat) :
    ((range n).map fun i => (a + i, s i)).filter (fun e => e.2 != 0) =
      ((range m).map fun i => (a + i, s i)).filter fun e => e.2 != 0 := by
  obtain ⟨d, rfl⟩ := Nat.exists_eq_add_of_le hmn
  rw [List.range_add, List.map_append, filter_append, List.map_map]
  refine (congrArg (_ ++ ·) (List.filter_eq_nil_iff.mpr fun e he => ?_)).trans (List.append_nil _)
  obtain ⟨i, -, rfl⟩ := List.mem_map.mp he
  simp [hs (m + i) (Nat.le_add_right _ _)]

theorem zipIdx_eq (l : List Nat) (a : Nat) :
    (l.zipIdx.map fun q => (a + q.2, q.1)) = (range l.length).map fun i => (a + i, l.getD i 0) := by
  refine List.ext_getElem (by simp) fun i h1 h2 => ?_
  have hi : i < l.length := by simpa using h1
  simp [hi]

/-- The chunks hold the non-zero slots in order. -/
theorem filter_held (chunks : List (List Nat)) (h : ∀ l ∈ chunks, l.length ≤ chunkLen) (k : Nat) :
    ((chunks.zipIdx k).flatMap fun e => e.1.zipIdx.map fun q => (e.2 * chunkLen + q.2, q.1)).filter
      (fun e => e.2 != 0) = ((range (chunks.length * chunkLen)).map fun i =>
        (k * chunkLen + i, slotOf chunks i)).filter fun e => e.2 != 0 := by
  induction chunks generalizing k with
  | nil => simp
  | cons l chunks ih =>
    -- the first chunk, and then the others one chunk further on
    have hfirst : ((range chunkLen).map fun i => (k * chunkLen + i, slotOf (l :: chunks) i)) =
        (range chunkLen).map fun i => (k * chunkLen + i, l.getD i 0) := by
      refine List.map_congr_left fun i hi => ?_
      have hlt := List.mem_range.mp hi
      rw [slotOf, Nat.div_eq_of_lt hlt, Nat.mod_eq_of_lt hlt]
      rfl
    have hrest : ((range (chunks.length * chunkLen)).map fun i =>
        (k * chunkLen + (chunkLen + i), slotOf (l :: chunks) (chunkLen + i))) =
        (range (chunks.length * chunkLen)).map fun i =>
          ((k + 1) * chunkLen + i, slotOf chunks i) := by
      refine List.map_congr_left fun i _ => ?_
      rw [slotOf, slotOf, Nat.add_div_left _ (by decide), Nat.add_mod_left, Nat.add_one_mul,
        Nat.add_assoc]
      rfl
    have hcut := filter_range (h l List.mem_cons_self)
      (fun i hi => getD_eq_default l 0 hi) (k * chunkLen)
    rw [List.length_cons, Nat.add_one_mul, Nat.add_comm, List.range_add, List.map_append,
      filter_append, hfirst, hcut, List.map_map]
    rw [List.zipIdx_cons, List.flatMap_cons, filter_append, ih fun x hx => h x (.tail _ hx),
      zipIdx_eq, ← hrest]
    rfl
/-- **`present`** is what a walk over all slots finds. -/
theorem present_eq (v : PageVec) : v.present =
    ((range v.len).map fun i => (i, v.slot i)).filter fun e => e.2 != 0 := by
  have hfull := filter_held v.chunks (fun l hl => by
    obtain ⟨c, hc⟩ := List.mem_iff_getElem?.mp hl
    have := (v.fits c (List.getElem?_eq_some_iff.mp hc).1).1
    rwa [chunkAt, getD_eq_getElem?_getD, hc] at this) 0
  have hlen : v.len ≤ v.chunks.length * chunkLen := by
    rw [v.dir]
    unfold chunkLen
    omega
  refine (hfull.trans (filter_range hlen (fun i hi => slotOf_of_le hi) _)).trans ?_
  simp [slot_eq]

theorem mem_present {p : Nat} : (i, p) ∈ v.present ↔ v.slot i = p ∧ p ≠ 0 := by
  rw [present_eq, mem_filter, List.mem_map]
  constructor
  · rintro ⟨⟨j, -, he⟩, hp⟩
    cases he
    exact ⟨rfl, by simpa using hp⟩
  · rintro ⟨rfl, hp⟩
    exact ⟨⟨i, List.mem_range.mpr (lt_of_slot hp), rfl⟩, by simpa using hp⟩

/-! ### Totals -/

/-- The sum of a weight over the slots. -/
def total (g : Nat → Nat) (v : PageVec) : Nat := ∑ i ∈ Finset.range v.len, g (v.slot i)

section Total

variable {g : Nat → Nat} (hg : g 0 = 0)

include hg

/-- Any range that holds all slots will do. -/
theorem total_eq_sum {v : PageVec} {n : Nat} (hn : v.len ≤ n) :
    total g v = ∑ i ∈ Finset.range n, g (v.slot i) := by
  refine Finset.sum_subset (Finset.range_subset_range.mpr hn) fun i _ hi => ?_
  rw [slot_of_le (by simpa using hi), hg]

/-- A total only depends on the slots. -/
theorem total_congr {v w : PageVec} (h : ∀ i, w.slot i = v.slot i) : total g w = total g v := by
  rw [total_eq_sum hg (le_max_left w.len v.len), total_eq_sum hg (le_max_right w.len v.len)]
  exact Finset.sum_congr rfl fun i _ => by rw [h]

/-- One slot changes. -/
theorem total_change {v w : PageVec} {i : Nat} (h : ∀ j, j ≠ i → w.slot j = v.slot j) :
    total g w + g (v.slot i) = total g v + g (w.slot i) := by
  rw [total_eq_sum hg (show w.len ≤ w.len + v.len + i + 1 by omega),
    total_eq_sum hg (show v.len ≤ w.len + v.len + i + 1 by omega)]
  exact sum_change (by omega) fun j hj => congrArg g (h j hj)

/-- The frames of a table carry its total. -/
theorem sum_frames (v : PageVec) : (v.frames.map g).sum = total g v := by
  have hdrop : ∀ l : List (Nat × Nat),
      (((l.filter fun e => e.2 != 0).map (·.2)).map g).sum = (l.map fun e => g e.2).sum := by
    intro l
    induction l with
    | nil => rfl
    | cons e l ih =>
      rw [List.filter_cons, map_cons, sum_cons]
      split
      · rw [map_cons, map_cons, sum_cons, ih]
      · next h =>
        have h0 : e.2 = 0 := by simpa using h
        rw [ih, h0, hg, Nat.zero_add]
  rw [frames, present_eq, hdrop, List.map_map]
  rfl

end Total

/-- `count_present` counts the slots that are not 0. -/
theorem countPresent_eq (v : PageVec) : v.countPresent = total (fun p => if p = 0 then 0 else 1) v := by
  have hone : ∀ e ∈ v.present, (if e.2 = 0 then 0 else 1) = 1 := fun e he =>
    if_neg (mem_present.mp he).2
  rw [← sum_frames rfl, frames, List.map_map]
  exact (by simp [countPresent] : v.countPresent = (v.present.map fun _ => 1).sum).trans
    (congrArg List.sum (List.map_congr_left hone).symm)

/-! ### Splitting and building -/

/-- Write a list of indexed frames. -/
def setAll (v : PageVec) (l : List (Nat × Nat)) : PageVec := l.foldl (fun v e => v.set e.1 e.2) v

@[simp] theorem len_setAll (l : List (Nat × Nat)) : ∀ v : PageVec, (v.setAll l).len = v.len := by
  induction l with
  | nil => exact fun _ => rfl
  | cons e l ih => exact fun v => (ih _).trans (len_set ..)

/-- Frames written at indices that agree with `s`. -/
theorem slot_setAll {s : Nat → Nat} (l : List (Nat × Nat)) : ∀ {v : PageVec},
    (∀ e ∈ l, e.1 < v.len ∧ e.2 = s e.1) → ∀ i,
      (v.setAll l).slot i = if i ∈ l.map (·.1) then s i else v.slot i := by
  induction l with
  | nil => exact fun _ i => by simp [setAll]
  | cons e l ih =>
    intro v h i
    obtain ⟨hlt, hv⟩ := h e (.head _)
    refine (ih (fun x hx => ?_) i).trans ?_
    · rw [len_set]
      exact h x (.tail _ hx)
    rw [slot_set hlt]
    simp only [map_cons, List.mem_cons]
    by_cases hi : i ∈ l.map (·.1)
    · rw [if_pos hi, if_pos (.inr hi)]
    rw [if_neg hi]
    by_cases he : i = e.1
    · rw [if_pos he, if_pos (.inl he), hv, he]
    · rw [if_neg he, if_neg (by rintro (h | h) <;> contradiction)]

/-- A new table with all the frames of `s`. -/
theorem slot_build {s : Nat → Nat} {l : List (Nat × Nat)} {n : Nat}
    (h : ∀ e ∈ l, e.1 < n ∧ e.2 = s e.1) (hall : ∀ i, s i ≠ 0 → (i, s i) ∈ l) (i : Nat) :
    ((new.resize n).setAll l).slot i = s i := by
  rw [slot_setAll l h]
  split
  · rfl
  · next hi =>
    rw [slot_resize, slot_new, ite_self]
    by_contra hne
    exact hi (List.mem_map.mpr ⟨_, hall i (Ne.symm hne), rfl⟩)

/-- The part `[n, len)` that `split_off` returns: whole chunks are moved, a cut
inside a chunk copies the frames. -/
def tail (v : PageVec) (n : Nat) : PageVec :=
  if n ≥ v.len then new
  else if h : n % chunkLen = 0 then
    { len := v.len - n
      chunks := v.chunks.drop (n / chunkLen)
      dir := by
        rw [length_drop, v.dir]
        unfold chunkLen at *
        omega
      fits := fun c hc => by
        rw [length_drop] at hc
        obtain ⟨hlen, hfit⟩ := v.fits (n / chunkLen + c) (by omega)
        have hn := Nat.div_add_mod' n chunkLen
        rw [h, Nat.add_zero] at hn
        rw [Nat.add_mul, hn] at hfit
        rw [chunkAt_drop]
        exact ⟨hlen, by omega⟩ }
  else (new.resize (v.len - n)).setAll
    ((v.present.filter fun e => e.1 ≥ n).map fun e => (e.1 - n, e.2))

/-- `split_off`: keep `[0, n)`, return `[n, len)` re-based at 0. -/
def splitOff (v : PageVec) (n : Nat) : PageVec × PageVec :=
  if n ≥ v.len then (v, new) else (v.resize n, v.tail n)

/-- The pages from `n` on, at a chunk boundary or not. -/
theorem slot_tail (v : PageVec) (n i : Nat) : (v.tail n).slot i = v.slot (n + i) := by
  unfold tail
  split
  · next h => rw [slot_new, slot_of_le (by omega)]
  split
  -- at a chunk boundary the chunks are cut; elsewhere the pages are put in again one by one
  · next hn h =>
    rw [slot_eq, slot_eq, slotOf, slotOf]
    have hdiv : (n + i) / chunkLen = n / chunkLen + i / chunkLen := by
      unfold chunkLen at *
      omega
    have hmod : (n + i) % chunkLen = i % chunkLen := by
      unfold chunkLen at *
      omega
    rw [hdiv, hmod, chunkAt_drop]
  · next hn _ =>
    refine slot_build (s := fun i => v.slot (n + i)) ?_ (fun i hi => ?_) i
    · rintro e he
      obtain ⟨⟨j, p⟩, hj, rfl⟩ := List.mem_map.mp he
      obtain ⟨hp, hge⟩ := mem_filter.mp hj
      obtain ⟨hs, hp⟩ := mem_present.mp hp
      have hlt := lt_of_slot (by rwa [hs])
      have hge : n ≤ j := by simpa using hge
      exact ⟨by show j - n < _; omega, by simp [Nat.add_sub_cancel' hge, hs]⟩
    · exact List.mem_map.mpr ⟨(n + i, v.slot (n + i)), mem_filter.mpr
        ⟨mem_present.mpr ⟨rfl, hi⟩, by simp⟩, by simp⟩

theorem slot_splitOff_left (v : PageVec) (n i : Nat) :
    (v.splitOff n).1.slot i = if i < n then v.slot i else 0 := by
  unfold splitOff
  split
  · next h =>
    split
    · rfl
    · exact slot_of_le (v := v) (by omega)
  · exact slot_resize ..

theorem slot_splitOff_right (v : PageVec) (n i : Nat) :
    (v.splitOff n).2.slot i = v.slot (n + i) := by
  unfold splitOff
  split
  · next h => rw [slot_new, slot_of_le (by omega)]
  · exact slot_tail ..

/-- `PageVec::from`. -/
def ofList (l : List Nat) : PageVec :=
  (new.resize l.length).setAll ((l.zipIdx.filter fun e => e.1 != 0).map fun e => (e.2, e.1))

@[simp] theorem len_ofList (l : List Nat) : (ofList l).len = l.length := by simp [ofList]

@[simp] theorem slot_ofList (l : List Nat) (i : Nat) : (ofList l).slot i = l.getD i 0 := by
  refine slot_build (s := fun i => l.getD i 0) ?_ (fun i hne => ?_) i
  · rintro e he
    obtain ⟨⟨p, j⟩, hj, rfl⟩ := List.mem_map.mp he
    have hl := List.mem_zipIdx_iff_getElem?.mp (mem_filter.mp hj).1
    exact ⟨(List.getElem?_eq_some_iff.mp hl).1, by simp [hl]⟩
  · cases hl : l[i]? with
    | none => simp [hl] at hne
    | some p =>
      simp only [getD_eq_getElem?_getD, hl] at hne ⊢
      exact List.mem_map.mpr ⟨(p, i), mem_filter.mpr
        ⟨List.mem_zipIdx_iff_getElem?.mpr hl, by simpa using hne⟩, rfl⟩

/-! ### The dense vector -/

/-- `index`; `none`: a panic. -/
def index (v : PageVec) (i : Nat) : Option Nat := v.get i

/-- `index_mut` and a store. -/
def store (v : PageVec) (i p : Nat) : Option PageVec := if i < v.len then some (v.set i p) else none

/-- The calls that change a vector of slots; `none` is a panic, or a table that will panic. -/
structure VecOps (V : Type) where
  resize : V → Nat → Option V
  store : V → Nat → Nat → Option V
  splitOff : V → Nat → Option (V × V)
  ofList : List Nat → V

/-- `isize::MAX / size_of::<usize>()`: a longer `Vec<usize>` is a capacity overflow. -/
def vecMax : Nat := (2 ^ 63 - 1) / 8

/-- A call on the `k`-th vector of a program. -/
inductive VecCall
  | resize (k n : Nat)
  | store (k i p : Nat)
  | splitOff (k n : Nat)
  | ofList (l : List Nat)
  | clone (k : Nat)

/-- One call; new vectors go to the end. -/
def VecOps.step {V : Type} (o : VecOps V) (vs : List V) : VecCall → Option (List V)
  | .resize k n => vs[k]?.bind fun v => (o.resize v n).map (vs.set k)
  | .store k i p => vs[k]?.bind fun v => (o.store v i p).map (vs.set k)
  | .splitOff k n => vs[k]?.bind fun v => (o.splitOff v n).map fun r => vs.set k r.1 ++ [r.2]
  | .ofList l => some (vs ++ [o.ofList l])
  | .clone k => vs[k]?.map fun v => vs ++ [v]

def VecOps.run {V : Type} (o : VecOps V) : List V → List VecCall → Option (List V)
  | vs, [] => some vs
  | vs, c :: calls => (o.step vs c).bind (o.run · calls)

/-- The call makes no vector longer than a `Vec` may be. -/
def VecCall.Fits : VecCall → Prop
  | .resize _ n => n ≤ vecMax
  | .ofList l => l.length ≤ vecMax
  | _ => True

end PageVec

end Leandros.Mm
