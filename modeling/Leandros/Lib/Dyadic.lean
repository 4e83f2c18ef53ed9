import Mathlib

/-!
# Leandros.Lib.Dyadic

**Aligned power-of-two blocks** and single bits of 64-bit words: the arithmetic
under a buddy allocator and its bitmap, over plain naturals.

The block `[a, a + 2 ^ m)` with `2 ^ m ∣ a` has the buddy `a ^^^ 2 ^ m`, and the
two together are the block of twice the size at the smaller address
(`Ico_min_buddy`). Which of the two is the lower one is bit `m` of `a`: `xor_two_pow` is a sum or
a difference accordingly, and two aligned blocks of different sizes are nested once they share
a number (`Ico_subset_of_mem`).
-/

namespace Leandros.Dyadic

open Finset (Ico mem_Ico)

/-! ### Masks and buddies -/

theorem and_mask_eq_zero {a m : Nat} : a &&& (2 ^ m - 1) = 0 ↔ 2 ^ m ∣ a := by
  rw [Nat.and_two_pow_sub_one_eq_mod, Nat.dvd_iff_mod_eq_zero]

theorem xor_one (k : Nat) : k ^^^ 1 = if k % 2 = 0 then k + 1 else k - 1 := by
  split
  · next h => exact Nat.xor_one_of_even (Nat.even_iff.mpr h)
  · next h => exact Nat.xor_one_of_odd (Nat.odd_iff.mpr (by omega))

variable {a m : Nat}

/-- The buddy of an aligned block sits right above it or right below it. -/
theorem xor_two_pow (h : 2 ^ m ∣ a) :
    a ^^^ 2 ^ m = if 2 ^ (m + 1) ∣ a then a + 2 ^ m else a - 2 ^ m := by
  obtain ⟨k, rfl⟩ := h
  have hx : (2 ^ m * k) ^^^ 2 ^ m = 2 ^ m * (k ^^^ 1) := by
    have := (Nat.shiftLeft_xor_distrib (i := m) (a := k) (b := 1)).symm
    simpa [Nat.shiftLeft_eq, Nat.mul_comm] using this
  have hd : 2 ^ (m + 1) ∣ 2 ^ m * k ↔ k % 2 = 0 := by
    rw [pow_succ, Nat.mul_dvd_mul_iff_left (by positivity), Nat.dvd_iff_mod_eq_zero]
  rw [hx, xor_one]
  by_cases hk : k % 2 = 0
  · rw [if_pos hk, if_pos (hd.mpr hk)]
    ring
  · rw [if_neg hk, if_neg (fun h => hk (hd.mp h)), Nat.mul_sub, mul_one]

theorem two_pow_le_of_not_dvd (h : 2 ^ m ∣ a) (hn : ¬2 ^ (m + 1) ∣ a) : 2 ^ m ≤ a :=
  Nat.le_of_dvd (Nat.pos_of_ne_zero (fun h0 => hn (h0 ▸ dvd_zero _))) h

theorem dvd_xor_two_pow (h : 2 ^ m ∣ a) : 2 ^ m ∣ a ^^^ 2 ^ m := by
  rw [xor_two_pow h]
  split
  · exact Nat.dvd_add h dvd_rfl
  · exact Nat.dvd_sub h dvd_rfl

theorem xor_two_pow_ne : a ^^^ 2 ^ m ≠ a := by
  intro h
  have : (2 : Nat) ^ m = 0 := by
    simpa [← Nat.xor_assoc] using congrArg (a ^^^ ·) h
  exact absurd this (by positivity)

/-- Merging a block with its buddy gives a block aligned to twice the size. -/
theorem dvd_min_buddy (h : 2 ^ m ∣ a) : 2 ^ (m + 1) ∣ min a (a ^^^ 2 ^ m) := by
  rw [xor_two_pow h]
  by_cases hd : 2 ^ (m + 1) ∣ a
  · rw [if_pos hd, min_eq_left (by omega)]
    exact hd
  have hle := two_pow_le_of_not_dvd h hd
  rw [if_neg hd, min_eq_right (by omega)]
  obtain ⟨k, rfl⟩ := h
  have hk : k % 2 = 1 := by
    rw [pow_succ, Nat.mul_dvd_mul_iff_left (by positivity)] at hd
    omega
  refine ⟨k / 2, ?_⟩
  rw [pow_succ, mul_assoc]
  conv_lhs => rw [← mul_one (2 ^ m), mul_assoc, ← Nat.mul_sub, one_mul]
  congr 1
  omega

/-- The merged block covers exactly the block and its buddy. -/
theorem Ico_min_buddy (h : 2 ^ m ∣ a) :
    Ico (min a (a ^^^ 2 ^ m)) (min a (a ^^^ 2 ^ m) + 2 ^ (m + 1)) =
      Ico a (a + 2 ^ m) ∪ Ico (a ^^^ 2 ^ m) ((a ^^^ 2 ^ m) + 2 ^ m) := by
  ext x
  simp only [mem_Ico, Finset.mem_union]
  rw [xor_two_pow h]
  by_cases hd : 2 ^ (m + 1) ∣ a
  · rw [if_pos hd]
    omega
  · have := two_pow_le_of_not_dvd h hd
    rw [if_neg hd, min_eq_right (by omega)]
    omega

/-- Two aligned blocks that share a point are nested. -/
theorem Ico_subset_of_mem {a b m n x : Nat} (ha : 2 ^ m ∣ a) (hb : 2 ^ n ∣ b) (hmn : m ≤ n)
    (hxa : x ∈ Ico a (a + 2 ^ m)) (hxb : x ∈ Ico b (b + 2 ^ n)) :
    Ico a (a + 2 ^ m) ⊆ Ico b (b + 2 ^ n) := by
  have hstep : ∀ {c d : Nat}, 2 ^ m ∣ c → 2 ^ m ∣ d → c < d → c + 2 ^ m ≤ d := fun hc hd hlt => by
    have := Nat.le_of_dvd (Nat.sub_pos_of_lt hlt) (Nat.dvd_sub hd hc)
    omega
  have hmn' : (2 : Nat) ^ m ∣ 2 ^ n := pow_dvd_pow 2 hmn
  rw [mem_Ico] at hxa hxb
  refine Finset.Ico_subset_Ico ?_ (hstep ha (Nat.dvd_add (hmn'.trans hb) hmn') (by omega))
  by_contra! hlt
  have := hstep ha (hmn'.trans hb) hlt
  omega

/-! ### One bit of a word -/

theorem testBit_clear {w k j : Nat} (hj : j < 64) :
    (w &&& ((2 ^ 64 - 1) ^^^ 1 <<< k)).testBit j = (w.testBit j && !decide (k = j)) := by
  rw [Nat.testBit_and, Nat.testBit_xor, Nat.one_shiftLeft, Nat.testBit_two_pow,
    Nat.testBit_two_pow_sub_one]
  simp [hj]

end Leandros.Dyadic
