import Leandros.Lib.OrdMap
import Leandros.Mm.Buddy.Model

/-!
# Leandros.Mm.PageRef

Physical frames and their reference counts (`mm/src/pageref.rs`). A frame the
table does not track has one owner.

The table knows nothing of who owns a frame. **`Tracks fr own`** ties it to a
ledger: `own f` owners of frame `f`, and the frame is with the buddy allocator
exactly when there are none. Each operation moves the ledger by one owner of
one frame (`Tracks.inc`, `Tracks.dec`, `Tracks.unrefOrFree`, `Tracks.free`,
`Tracks.alloc`).

A count is a `u32`, and `inc` wraps. The reference that wraps it makes the frame
look free to whoever drops the next one, so the ledger is kept only while there is
room for one more (`hasRoom`).
-/

namespace Leandros.Mm

/-- The frames in use: `PAGE_REFS`, and what the buddy allocator handed out. -/
structure Frames where
  refs : OrdMap Nat
  /-- Frames handed out and not freed since. -/
  live : Finset Nat
  /-- `buddy::free` calls on a frame that was not handed out. -/
  badFrees : Nat

namespace Frames

/-- `get`: 1 if untracked. -/
def get (fr : Frames) (phys : Nat) : Nat := (fr.refs.get? phys).getD 1

def inc (fr : Frames) (phys : Nat) : Frames :=
  { fr with refs := fr.refs.insert phys (((fr.refs.get? phys).getD 1 + 1) % 2 ^ 32) }

def incMany (fr : Frames) (frames : List Nat) : Frames := frames.foldl inc fr

/-- `dec`: drop a reference, never free. -/
def dec (fr : Frames) (phys : Nat) : Frames :=
  match fr.refs.get? phys with
  | some count =>
    let count := if count > 1 then count - 1 else count
    if count ≤ 1 then { fr with refs := fr.refs.erase phys }
    else { fr with refs := fr.refs.insert phys count }
  | none => fr

/-- The frames of a buddy block. -/
def block (phys order : Nat) : Finset Nat :=
  (Finset.range (2 ^ order)).image fun i => phys + i * pageSize

/-- `buddy::free`, as the allocator's users see it. -/
def free (fr : Frames) (phys order : Nat) : Frames :=
  if block phys order ⊆ fr.live then { fr with live := fr.live \ block phys order }
  else { fr with badFrees := fr.badFrees + 1 }

/-- `unref_or_free`: drop a reference, and free with the last one. -/
def unrefOrFree (fr : Frames) (phys order : Nat) : Frames :=
  match fr.refs.get? phys with
  | some count =>
    if count > 1 then
      if count - 1 ≤ 1 then { fr with refs := fr.refs.erase phys }
      else { fr with refs := fr.refs.insert phys (count - 1) }
    else { fr with refs := fr.refs.erase phys }.free phys order
  | none => { fr with refs := fr.refs.erase phys }.free phys order

def unrefAll (fr : Frames) (frames : List Nat) : Frames :=
  frames.foldl (fun fr phys => fr.unrefOrFree phys 0) fr

def freeAll (fr : Frames) (frames : List Nat) : Frames :=
  frames.foldl (fun fr phys => fr.free phys 0) fr

/-- The buddy allocator hands out a block. -/
def alloc (fr : Frames) (phys order : Nat) : Frames :=
  { fr with live := fr.live ∪ block phys order }

def allocAll (fr : Frames) (frames : List Nat) : Frames :=
  frames.foldl (fun fr phys => fr.alloc phys 0) fr

/-- No count wraps if every frame gets up to `n` more references. -/
def hasRoom (fr : Frames) (n : Nat) : Bool :=
  decide (1 + n < 2 ^ 32) && fr.refs.entries.all fun e => decide (e.2 + n < 2 ^ 32)

/-! ### The ledger -/

/-- The table agrees with the number of owners of each frame. -/
structure Tracks (fr : Frames) (own : Nat → Nat) : Prop where
  refs : ∀ f, fr.refs.get? f = if 2 ≤ own f then some (own f) else none
  live : ∀ f, f ∈ fr.live ↔ 0 < own f
  badFrees : fr.badFrees = 0

/-- One more owner of `f`. -/
def gain (own : Nat → Nat) (f : Nat) : Nat → Nat := Function.update own f (own f + 1)

/-- One owner of `f` less. -/
def lose (own : Nat → Nat) (f : Nat) : Nat → Nat := Function.update own f (own f - 1)

theorem gain_apply (own : Nat → Nat) (f g : Nat) :
    gain own f g = if g = f then own g + 1 else own g := by
  rw [gain, Function.update_apply]
  split
  · next h => rw [h]
  · rfl

theorem lose_apply (own : Nat → Nat) (f g : Nat) :
    lose own f g = if g = f then own g - 1 else own g := by
  rw [lose, Function.update_apply]
  split
  · next h => rw [h]
  · rfl

@[simp] theorem block_zero (phys : Nat) : block phys 0 = {phys} := by
  simp [block]

variable {fr : Frames} {own : Nat → Nat} {f : Nat}

theorem OrdMap_erase_none {m : OrdMap Nat} (hf : m.get? f = none) (g : Nat) :
    (m.erase f).get? g = m.get? g := by
  rw [OrdMap.get?_erase]
  split
  · next hg => rw [hg, hf]
  · rfl

section

variable (h : fr.Tracks own)
include h

theorem Tracks.get_eq (hf : 0 < own f) : fr.get f = own f := by
  rw [Frames.get, h.refs]
  split
  · rfl
  · show 1 = own f
    omega

/-- The room that the table shows is there for every owner. -/
theorem Tracks.room {n : Nat} (hr : fr.hasRoom n = true) (f : Nat) : own f + n < 2 ^ 32 := by
  simp only [hasRoom, Bool.and_eq_true, List.all_eq_true, decide_eq_true_eq] at hr
  by_cases htwo : 2 ≤ own f
  · exact hr.2 (f, own f) (OrdMap.mem_entries.mpr (by rw [h.refs, if_pos htwo]))
  · have := hr.1
    omega

theorem Tracks.inc (hf : 0 < own f) (hroom : own f + 1 < 2 ^ 32) :
    (fr.inc f).Tracks (gain own f) := by
  have hget : (fr.refs.get? f).getD 1 = own f := h.get_eq hf
  refine ⟨fun g => ?_, fun g => ?_, h.badFrees⟩
  · rw [Frames.inc, OrdMap.get?_insert, gain_apply, hget, Nat.mod_eq_of_lt hroom]
    split
    · next hg => rw [if_pos (by rw [hg]; omega), hg]
    · exact h.refs g
  · rw [gain_apply]
    refine (h.live g).trans ?_
    split
    · next hg =>
      rw [hg]
      omega
    · rfl

/-- One owner fewer; the last one left has no entry of its own. -/
theorem Tracks.dec (hf : 2 ≤ own f) : (fr.dec f).Tracks (lose own f) := by
  -- a frame with two owners has an entry; with one left it has none
  have hget : fr.refs.get? f = some (own f) := by rw [h.refs, if_pos hf]
  have hdec : (if own f > 1 then own f - 1 else own f) = own f - 1 := if_pos (by omega)
  have hlive : ∀ g, g ∈ fr.live ↔ 0 < lose own f g := fun g => by
    rw [lose_apply]
    refine (h.live g).trans ?_
    split
    · next hg =>
      rw [hg]
      omega
    · rfl
  rw [Frames.dec, hget]
  simp only [hdec]
  split
  · next hone =>
    refine ⟨fun g => ?_, hlive, h.badFrees⟩
    rw [OrdMap.get?_erase, lose_apply]
    split
    · next hg => rw [if_neg (by rw [hg]; omega)]
    · exact h.refs g
  · next hmany =>
    refine ⟨fun g => ?_, hlive, h.badFrees⟩
    rw [OrdMap.get?_insert, lose_apply]
    split
    · next hg => rw [if_pos (by rw [hg]; omega), hg]
    · exact h.refs g

/-- The allocator takes back a frame whose one owner lets go. -/
theorem Tracks.free (hf : own f = 1) : (fr.free f 0).Tracks (lose own f) := by
  rw [Frames.free, block_zero, if_pos (by rw [Finset.singleton_subset_iff, h.live]; omega)]
  refine ⟨fun g => ?_, fun g => ?_, h.badFrees⟩
  · rw [lose_apply]
    refine (h.refs g).trans ?_
    by_cases hg : g = f
    · rw [if_pos hg, hg, if_neg (by omega), if_neg (by omega)]
    · rw [if_neg hg]
  · rw [lose_apply, Finset.mem_sdiff, Finset.mem_singleton, h.live]
    split
    · next hg =>
      rw [hg]
      omega
    · next hg => exact and_iff_left hg

/-- **`unref_or_free`** drops one owner; the frame is freed with the last one. -/
theorem Tracks.unrefOrFree (hf : 0 < own f) :
    (fr.unrefOrFree f 0).Tracks (lose own f) := by
  by_cases htwo : 2 ≤ own f
  · -- Shared: the same as `dec`.
    have hget : fr.refs.get? f = some (own f) := by rw [h.refs, if_pos htwo]
    have hdec := h.dec htwo
    rw [Frames.dec, hget] at hdec
    rw [Frames.unrefOrFree, hget]
    simp only [if_pos (show own f > 1 by omega)] at hdec ⊢
    exact hdec
  · have hget : fr.refs.get? f = none := by rw [h.refs, if_neg htwo]
    have herase : { fr with refs := fr.refs.erase f }.Tracks own :=
      ⟨fun g => (OrdMap_erase_none hget g).trans (h.refs g), h.live, h.badFrees⟩
    rw [Frames.unrefOrFree, hget]
    exact herase.free (by omega)

/-- A frame the allocator hands out was nobody's. -/
theorem Tracks.alloc (hf : own f = 0) : (fr.alloc f 0).Tracks (gain own f) := by
  rw [Frames.alloc, block_zero]
  refine ⟨fun g => ?_, fun g => ?_, h.badFrees⟩
  · rw [gain_apply]
    refine (h.refs g).trans ?_
    by_cases hg : g = f
    · rw [if_pos hg, hg, if_neg (by omega), if_neg (by omega)]
    · rw [if_neg hg]
  · rw [gain_apply, Finset.mem_union, Finset.mem_singleton, h.live]
    split
    · next hg =>
      omega
    · next hg => exact or_iff_left hg

theorem Tracks.congr {own' : Nat → Nat} (he : ∀ g, own' g = own g) :
    fr.Tracks own' := by
  rwa [funext he]

end

/-! ### Lists of frames -/

theorem count_cons_apply (g f : Nat) (l : List Nat) :
    (f :: l).count g = if g = f then l.count g + 1 else l.count g := by
  rw [List.count_cons]
  by_cases h : g = f
  · rw [h]
    simp
  · rw [if_neg h, if_neg (by simpa using Ne.symm h)]
    rfl

/-- A list of references is dropped. -/
theorem Tracks.unrefAll (l : List Nat) : ∀ {fr : Frames} {own : Nat → Nat},
    (fr.Tracks fun f => own f + l.count f) → (fr.unrefAll l).Tracks own := by
  induction l with
  | nil => exact fun h => h.congr fun g => by simp
  | cons f l ih =>
    intro fr own h
    refine ih ((h.unrefOrFree (by simp)).congr fun g => ?_)
    rw [lose_apply, count_cons_apply]
    split
    · omega
    · rfl

/-- A list of frames goes back to the allocator, each from its only owner. -/
theorem Tracks.freeAll (l : List Nat) : ∀ {fr : Frames} {own : Nat → Nat},
    (fr.Tracks fun f => own f + l.count f) → (∀ f ∈ l, own f + l.count f = 1) →
      (fr.freeAll l).Tracks own := by
  induction l with
  | nil => exact fun h _ => h.congr fun g => by simp
  | cons f l ih =>
    intro fr own h hone
    refine ih ((h.free (hone f (List.mem_cons_self ..))).congr fun g => ?_) ?_
    · rw [lose_apply, count_cons_apply]
      split
      · omega
      · rfl
    · intro g hg
      have hg' := hone g (List.mem_cons_of_mem _ hg)
      rw [count_cons_apply] at hg'
      have hpos : 0 < l.count g := List.count_pos_iff.mpr hg
      split at hg'
      · omega
      · exact hg'

/-- A list of references is taken. -/
theorem Tracks.incMany (l : List Nat) : ∀ {fr : Frames} {own : Nat → Nat},
    fr.Tracks own → (∀ f ∈ l, 0 < own f) → (∀ f, own f + l.count f < 2 ^ 32) →
      (fr.incMany l).Tracks fun f => own f + l.count f := by
  induction l with
  | nil => exact fun h _ _ => h.congr fun g => by simp
  | cons f l ih =>
    intro fr own h hpos hroom
    -- the first page takes one of the room, the others need the rest
    have hroom' : ∀ g, gain own f g + l.count g < 2 ^ 32 := fun g => by
      have := hroom g
      rw [count_cons_apply] at this
      rw [gain_apply]
      split
      · next hg =>
        rw [if_pos hg] at this
        omega
      · next hg => rwa [if_neg hg] at this
    have hf : own f + 1 < 2 ^ 32 := by
      have := hroom' f
      rw [gain_apply, if_pos rfl] at this
      omega
    refine (ih (h.inc (hpos f (List.mem_cons_self ..)) hf) (fun g hg => ?_) hroom').congr
      fun g => ?_
    · have := hpos g (List.mem_cons_of_mem _ hg)
      rw [gain_apply]
      split <;> omega
    · rw [gain_apply, count_cons_apply]
      split
      · omega
      · rfl

/-- Fresh frames, each for one owner. -/
theorem Tracks.allocAll (l : List Nat) : ∀ {fr : Frames} {own : Nat → Nat}, fr.Tracks own →
    l.Nodup → (∀ f ∈ l, own f = 0) → (fr.allocAll l).Tracks fun f => own f + l.count f := by
  induction l with
  | nil => exact fun h _ _ => h.congr fun f => by simp
  | cons g l ih =>
    intro fr own h hnd h0
    obtain ⟨hg, hnd'⟩ := List.nodup_cons.mp hnd
    refine (ih (h.alloc (h0 g (List.mem_cons_self ..))) hnd' fun f hf => ?_).congr fun f => ?_
    · rw [gain_apply, if_neg (by rintro rfl; exact hg hf)]
      exact h0 f (List.mem_cons_of_mem _ hf)
    rw [gain_apply, count_cons_apply]
    split
    · omega
    · rfl

end Frames

end Leandros.Mm
