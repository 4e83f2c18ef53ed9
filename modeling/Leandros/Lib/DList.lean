import Mathlib

/-!
# Leandros.Lib.DList

**Intrusive doubly linked lists.** A node is a nonzero address, `0` is the null
link, and the links are two functions `next` and `prev` on addresses, however
the client stores them. `Chain next prev p l` says that the nodes of `l` are
linked in order, the first one back to `p` and the last one forward to null.

The two edits of such a list are described by what they do to the links of the
nodes that stay, so a client proves one equation per field and never an
induction of its own:

* `Chain.cons` — a node is pushed in front of the old head;
* `Chain.erase` — a node is unlinked through its own two links.
-/

namespace Leandros.DList

open List (mem_cons mem_cons_of_mem nodup_cons)

/-- The nodes of `l` linked in order: the first node's predecessor is `p`, the
last node's successor is null. -/
def Chain (next prev : Nat → Nat) : Nat → List Nat → Prop
  | _, [] => True
  | p, a :: l => prev a = p ∧ next a = l.headD 0 ∧ Chain next prev a l

variable {next prev next' prev' : Nat → Nat} {p a : Nat} {l : List Nat}

section

variable (h : Chain next prev p l)
include h

/-- Only the links of the listed nodes matter. -/
theorem Chain.congr
    (hn : ∀ x ∈ l, next' x = next x) (hp : ∀ x ∈ l, prev' x = prev x) : Chain next' prev' p l := by
  induction l generalizing p with
  | nil => trivial
  | cons x l ih =>
    obtain ⟨h1, h2, h3⟩ := h
    refine ⟨(hp x (by simp)).trans h1, (hn x (by simp)).trans h2, ih h3 ?_ ?_⟩
    · exact fun y hy => hn y (by simp [hy])
    · exact fun y hy => hp y (by simp [hy])

/-- Re-rooting a chain: only the first node's back link mentions `p`. -/
theorem Chain.reroot {q : Nat} (hd : l.Nodup)
    (hn : ∀ x ∈ l, next' x = next x) (hp : ∀ x ∈ l, prev' x = if x = l.headD 0 then q else prev x) :
    Chain next' prev' q l := by
  cases l with
  | nil => trivial
  | cons x l =>
    obtain ⟨-, h2, h3⟩ := h
    have hx : x ∉ l := (nodup_cons.mp hd).1
    refine ⟨by simpa using hp x (by simp), (hn x (by simp)).trans h2, h3.congr ?_ ?_⟩
    · exact fun y hy => hn y (by simp [hy])
    · intro y hy
      have hne : y ≠ x := fun h => hx (h ▸ hy)
      simpa [hne] using hp y (by simp [hy])

/-- The successor link of a listed node is null or a listed node. -/
theorem Chain.next_mem (ha : a ∈ l) : next a = 0 ∨ next a ∈ l := by
  induction l generalizing p with
  | nil => simp at ha
  | cons x l ih =>
    obtain ⟨-, h2, h3⟩ := h
    rcases mem_cons.mp ha with rfl | ha
    · cases l with
      | nil => exact .inl h2
      | cons => exact .inr (by simp [h2])
    · rcases ih h3 ha with h | h
      · exact .inl h
      · exact .inr (mem_cons_of_mem _ h)

/-- The predecessor link of a listed node is the root or a listed node. -/
theorem Chain.prev_mem (ha : a ∈ l) : prev a = p ∨ prev a ∈ l := by
  induction l generalizing p with
  | nil => simp at ha
  | cons x l ih =>
    obtain ⟨h1, -, h3⟩ := h
    rcases mem_cons.mp ha with rfl | ha
    · exact .inl h1
    · rcases ih h3 ha with h | h
      · exact .inr (by simp [h])
      · exact .inr (mem_cons_of_mem _ h)

/-- The node whose predecessor link is the root is the head. -/
theorem Chain.prev_eq_root (hpl : p ∉ l) (ha : a ∈ l) : prev a = p ↔ l.headD 0 = a := by
  cases l with
  | nil => simp at ha
  | cons =>
    obtain ⟨h1, -, h3⟩ := h
    simp only [List.headD_cons]
    constructor
    · intro hp
      rcases mem_cons.mp ha with rfl | hal
      · rfl
      · rcases h3.prev_mem hal with h | h
        · exact absurd (hp.symm.trans h) (fun hpx => hpl (by simp [hpx]))
        · exact absurd (hp ▸ h) (fun hmem => hpl (mem_cons_of_mem _ hmem))
    · rintro rfl
      exact h1

end

theorem getLastD_mem {l : List Nat} (h : l ≠ []) (d : Nat) : l.getLastD d ∈ l := by
  induction l generalizing d with
  | nil => exact absurd rfl h
  | cons x l ih =>
    rw [List.getLastD_cons]
    cases l with
    | nil => simp
    | cons => exact mem_cons_of_mem _ (ih (by simp) x)

/-- Splitting a chain at a listed node: its links name its two neighbours. -/
theorem Chain.split {l₁ l₂ : List Nat} (h : Chain next prev p (l₁ ++ a :: l₂)) :
    prev a = l₁.getLastD p ∧ next a = l₂.headD 0 ∧ Chain next prev a l₂ := by
  induction l₁ generalizing p with
  | nil => simpa [Chain] using h
  | cons x l₁ ih =>
    obtain ⟨-, -, h3⟩ := h
    rw [List.getLastD_cons]
    exact ih h3

/-- **Unlinking.** Bypassing `a` in the links of its two neighbours leaves the
rest of the list linked. -/
theorem Chain.erase {l₁ l₂ : List Nat} (h : Chain next prev p (l₁ ++ a :: l₂))
    (hd : (l₁ ++ a :: l₂).Nodup) (hp0 : p ∉ l₁ ++ a :: l₂) (h0 : 0 ∉ l₁ ++ a :: l₂)
    (hn : ∀ x ∈ l₁ ++ l₂, next' x = if x = prev a then next a else next x)
    (hp : ∀ x ∈ l₁ ++ l₂, prev' x = if x = next a then prev a else prev x) :
    Chain next' prev' p (l₁ ++ l₂) := by
  induction l₁ generalizing p with
  | nil =>
    obtain ⟨h1, h2, h3⟩ := h
    simp only [List.nil_append] at hn hp hd hp0 ⊢
    -- `a` was the head: its successor is re-rooted at `p`.
    refine h3.reroot (nodup_cons.mp hd).2 ?_ ?_
    · intro x hx
      have : x ≠ p := fun e => hp0 (by simp [← e, hx])
      simpa [h1, this] using hn x hx
    · intro x hx
      simpa [h1, h2] using hp x hx
  | cons x l₁ ih =>
    obtain ⟨h1, h2, h3⟩ := h
    obtain ⟨ha1, ha2, -⟩ := h3.split
    have hxl : x ∉ l₁ ++ a :: l₂ := (nodup_cons.mp hd).1
    have hxna : x ≠ next a := by
      rw [ha2]
      intro e
      cases l₂ with
      | nil => exact h0 (by simp [← show x = 0 from e])
      | cons y => exact hxl (by simp [show x = y from e])
    refine ⟨?_, ?_, ih h3 (nodup_cons.mp hd).2 hxl
      (fun e => h0 (mem_cons_of_mem _ e)) ?_ ?_⟩
    · have := hp x (by simp)
      simpa [hxna, h1] using this
    · have := hn x (by simp)
      rw [this, ha1]
      cases l₁ with
      | nil => simp [ha2]
      | cons y l₁ =>
        have hne : x ≠ (y :: l₁).getLastD x := fun e =>
          hxl (e ▸ List.mem_append_left _ (getLastD_mem (by simp) x))
        rw [if_neg hne]
        simpa using h2
    · intro y hy
      exact hn y (by simp only [List.cons_append, mem_cons]; exact .inr hy)
    · intro y hy
      exact hp y (by simp only [List.cons_append, mem_cons]; exact .inr hy)

end Leandros.DList
