import Mathlib

/-!
# Leandros.Lib.Usize

**Machine-word arithmetic over naturals.** A `usize` is a natural below
`2 ^ 64`; the operations below are what a release build computes, where
overflow wraps instead of panicking. `PAGE_SIZE`-style rounding is written with
division, which is what masking with `!(align - 1)` does for a power of two.

The lemmas say when an operation is the exact one (`wadd_of_lt`, `wsub_of_le`, `wmul_of_lt`,
`checkedAdd_eq_some`) and characterise rounding by its order: rounding down is the greatest multiple
below, and rounding up the least one above.
-/

namespace Leandros

/-- One past the largest `usize`. -/
abbrev usizeLimit : Nat := 2 ^ 64

/-- `a + b` as a release build computes it. -/
def wadd (a b : Nat) : Nat := (a + b) % usizeLimit

/-- `a - b` of two words as a release build computes it. -/
def wsub (a b : Nat) : Nat := if b ≤ a then a - b else a + usizeLimit - b

/-- `a * b` as a release build computes it. -/
def wmul (a b : Nat) : Nat := (a * b) % usizeLimit

/-- `a.checked_add(b)`. -/
def checkedAdd (a b : Nat) : Option Nat := if a + b < usizeLimit then some (a + b) else none

/-- `value & !(align - 1)` for a power of two `align`. -/
def alignDown (value align : Nat) : Nat := value / align * align

/-- `(value + align - 1) & !(align - 1)` for a power of two `align`. -/
def alignUp (value align : Nat) : Nat := alignDown (wadd value (align - 1)) align

theorem wadd_of_lt {a b : Nat} (h : a + b < usizeLimit) : wadd a b = a + b :=
  Nat.mod_eq_of_lt h

theorem wsub_of_le {a b : Nat} (hb : b ≤ a) : wsub a b = a - b := if_pos hb

theorem wmul_of_lt {a b : Nat} (h : a * b < usizeLimit) : wmul a b = a * b :=
  Nat.mod_eq_of_lt h

theorem checkedAdd_eq_some {a b e : Nat} :
    checkedAdd a b = some e ↔ a + b = e ∧ e < usizeLimit := by
  unfold checkedAdd
  split
  · next h => simp only [Option.some.injEq]; constructor
              · rintro rfl; exact ⟨rfl, h⟩
              · exact And.left
  · next h => simp only [reduceCtorEq, false_iff, not_and]; rintro rfl; exact h

theorem alignDown_le (v a : Nat) : alignDown v a ≤ v := Nat.div_mul_le_self v a

theorem dvd_alignDown (v a : Nat) : a ∣ alignDown v a := Dvd.intro_left _ rfl

theorem dvd_alignUp (v a : Nat) : a ∣ alignUp v a := dvd_alignDown _ _

/-- Rounding down keeps every multiple below. -/
theorem le_alignDown_iff {v a x : Nat} (ha : 0 < a) (hx : a ∣ x) : x ≤ alignDown v a ↔ x ≤ v := by
  refine ⟨fun h => h.trans (alignDown_le v a), fun h => ?_⟩
  obtain ⟨k, rfl⟩ := hx
  rw [mul_comm]
  exact Nat.mul_le_mul_right a ((Nat.le_div_iff_mul_le ha).mpr (by rwa [mul_comm]))

/-- Rounding up keeps every multiple above, as long as nothing wraps. -/
theorem alignUp_le_iff {v a x : Nat} (ha : 0 < a) (hv : v + (a - 1) < usizeLimit) (hx : a ∣ x) :
    alignUp v a ≤ x ↔ v ≤ x := by
  obtain ⟨k, rfl⟩ := hx
  rw [alignUp, wadd_of_lt hv, alignDown, mul_comm a k, Nat.mul_le_mul_right_iff ha,
    Nat.div_le_iff_le_mul_add_pred ha, mul_comm a k]
  omega

theorem le_alignUp {v a : Nat} (ha : 0 < a) (hv : v + (a - 1) < usizeLimit) : v ≤ alignUp v a :=
  (alignUp_le_iff ha hv (dvd_alignUp v a)).mp le_rfl

end Leandros
