import Mathlib

/-!
# Leandros.Lib.Slice

**Writes into a buffer of fixed length**, over an arbitrary type of elements: `splice` replaces the
elements from an offset on, `copyWithin` and `fill` are the two writes built on it. A write at the
end of a known part extends that part (`splice_at_length`), so that a row of writes is followed by
rewriting with one lemma. A write that ends inside the buffer keeps its length (`length_splice`). In a
buffer of bytes, `le16` and `le32` read little-endian words.
-/

namespace Leandros

variable {α : Type*}

/-- `bs` in the place of the elements from `off` on. -/
def splice (l : List α) (off : Nat) (bs : List α) : List α :=
  l.take off ++ (bs ++ l.drop (off + bs.length))

/-- The elements from `lo` to `hi`, moved to `off`. -/
def copyWithin (l : List α) (lo hi off : Nat) : List α :=
  splice l off ((l.drop lo).take (hi - lo))

def fill (l : List α) (lo hi : Nat) (x : α) : List α :=
  splice l lo (List.replicate (hi - lo) x)

variable {off : Nat}

theorem length_splice {l : List α} {bs : List α} (h : off + bs.length ≤ l.length) :
    (splice l off bs).length = l.length := by
  simp only [splice, List.length_append, List.length_take, List.length_drop]
  omega

variable {known rest : List α}

/-- A write at the end of a part that is known. -/
theorem splice_at_length (h : off = known.length)
    (bs : List α) : splice (known ++ rest) off bs = (known ++ bs) ++ rest.drop bs.length := by
  subst h
  simp [splice]

theorem fill_at_length {hi : Nat} (h : off = known.length) (x : α) :
    fill (known ++ rest) off hi x =
      (known ++ List.replicate (hi - off) x) ++ rest.drop (hi - off) := by
  rw [fill, splice_at_length h, List.length_replicate]

/-- From the end of a part that is known to the end of the buffer. -/
theorem fill_to_end {hi : Nat} (h : off = known.length)
    (hhi : hi = known.length + rest.length) (x : α) :
    fill (known ++ rest) off hi x = known ++ List.replicate rest.length x := by
  subst h hhi
  rw [fill_at_length rfl, Nat.add_sub_cancel_left, List.drop_length, List.append_nil]

/-- What is read at an index after a write: the write's own element inside it. -/
theorem getD_splice {l : List α} {bs : List α} (h : off + bs.length ≤ l.length) (i : Nat) (x : α) :
    (splice l off bs).getD i x =
      if off ≤ i ∧ i < off + bs.length then bs.getD (i - off) x else l.getD i x := by
  have htake : (l.take off).length = off := by rw [List.length_take]; omega
  unfold splice
  by_cases hi : i < off
  · rw [if_neg (by omega), List.getD_append _ _ _ _ (by omega), List.getD_eq_getElem?_getD,
      List.getElem?_take_of_lt hi, ← List.getD_eq_getElem?_getD]
  rw [List.getD_append_right _ _ _ _ (by omega), htake]
  by_cases hb : i - off < bs.length
  · rw [if_pos (by omega), List.getD_append _ _ _ _ hb]
  rw [if_neg (by omega), List.getD_append_right _ _ _ _ (by omega), List.getD_eq_getElem?_getD,
    List.getElem?_drop]
  congr 2
  omega

/-! ### Little-endian words -/

abbrev Byte := BitVec 8

def le16 (l : List Byte) (off : Nat) : BitVec 16 := l.getD (off + 1) 0 ++ l.getD off 0

def le32 (l : List Byte) (off : Nat) : BitVec 32 := le16 l (off + 2) ++ le16 l off

def toLe16 (v : BitVec 16) : List Byte := [v.setWidth 8, (v >>> 8).setWidth 8]

@[simp] theorem length_toLe16 (v : BitVec 16) : (toLe16 v).length = 2 := rfl

theorem append_toLe16 (v : BitVec 16) : ((v >>> 8).setWidth 8 ++ v.setWidth 8 : BitVec 16) = v := by
  apply BitVec.eq_of_getLsbD_eq
  intro i hi
  rw [BitVec.getLsbD_append]
  by_cases h : i < 8
  · simp [h]
  · simp [h, show 8 + (i - 8) = i by omega, show i - 8 < 8 by omega]

theorem le16_splice_self {l : List Byte} {v : BitVec 16} (h : off + 2 ≤ l.length) :
    le16 (splice l off (toLe16 v)) off = v := by
  rw [le16, getD_splice h, getD_splice h, length_toLe16, if_pos (by omega), if_pos (by omega),
    Nat.add_sub_cancel_left, Nat.sub_self]
  exact append_toLe16 v

theorem le16_splice_of_disjoint {l : List Byte} {o : Nat} {v : BitVec 16}
    (h : off + 2 ≤ l.length) (ho : o + 2 ≤ off ∨ off + 2 ≤ o) :
    le16 (splice l off (toLe16 v)) o = le16 l o := by
  rw [le16, getD_splice h, getD_splice h, length_toLe16, if_neg (by omega), if_neg (by omega)]
  rfl

end Leandros
