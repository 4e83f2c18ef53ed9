import Leandros.Lib.Slice

/-!
# Leandros.Xattr.Arena

The arena that the extended attributes of an inode are packed in (`servers/xattr/src/lib.rs`, "arena
codec"): a row of entries, each with a header of four bytes, the name, the value and padding to a
multiple of four, ended by a zero byte. tmpfs keeps one of 2048 bytes in each entry, F2FS one of 4076
in the inode's xattr node.

The functions of the first part work on bytes, as the code does. `Holds a es` says that the bytes `a`
are the row of attributes `es` and then zeros, and the second part follows `find`, `set` and `remove`
on it. An `Arena` is a row of bytes that holds some attributes, and `Attrs` the finite map that it
stands for: `set` and `remove` on the arena are those on the map, error by error. What the filesystems
rely on follows from that, and so does what every run of calls answers.
-/

namespace Leandros.Xattr

open BitVec (ofNat toNat_ofNat)
open Function (update update_apply update_of_ne update_self)
open List (append_assoc filter_sublist find?_cons_of_neg length_append length_cons
  length_replicate mem_filter mem_map nil_append replicate take_left)

/-! ### Constants -/

def ePerm : Nat := 1
def eAcces : Nat := 13
def eExist : Nat := 17
def eInval : Nat := 22
def eNoSpc : Nat := 28
def eNoData : Nat := 61
def eOpNotSupp : Nat := 95

/-- `TMP_XATTR_ARENA`. -/
def tmpXattrArena : Nat := 2048

/-- `F2FS_XATTR_ARENA`. -/
def f2fsXattrArena : Nat := 4076

/-- `XATTR_CREATE`. -/
def xattrCreate : BitVec 32 := 1

/-- `XATTR_REPLACE`. -/
def xattrReplace : BitVec 32 := 2

/-! ### The codec -/

def align4 (n : Nat) : Nat := (n + 3) / 4 * 4

/-- What the iterator over an arena gives. -/
structure Item where
  off : Nat
  idx : Byte
  suf : List Byte
  val : List Byte

open Item

/-- The length of an entry, with its header and its padding. -/
def entryLen (suf val : List Byte) : Nat := align4 (4 + suf.length + val.length)

/-- `Iter::next` at `pos`: the entry there and where the next one starts. A header that does not fit
ends the list, as the zero byte does. -/
def next (a : List Byte) (pos : Nat) : Option (Item × Nat) :=
  if a.length < pos + 4 ∨ a.getD pos 0 = 0 then none
  else
    let nl := (a.getD (pos + 1) 0).toNat
    let vs := (le16 a (pos + 2)).toNat
    let body := pos + 4
    if a.length < body + nl + vs then none
    else some (⟨pos, a.getD pos 0, (a.drop body).take nl, (a.drop (body + nl)).take vs⟩,
      pos + align4 (4 + nl + vs))

/-- The entries from `pos` on and where the iterator stops; `fuel` bounds their number. -/
def entriesFrom (a : List Byte) : Nat → Nat → List Item × Nat
  | 0, pos => ([], pos)
  | fuel + 1, pos =>
    match next a pos with
    | none => ([], pos)
    | some (it, pos') => (it :: (entriesFrom a fuel pos').1, (entriesFrom a fuel pos').2)

def entries (a : List Byte) : List Item := (entriesFrom a a.length 0).1

/-- `used_len`. -/
def usedLen (a : List Byte) : Nat := (entriesFrom a a.length 0).2

def Item.is (idx : Byte) (suf : List Byte) (it : Item) : Bool := it.idx == idx && it.suf == suf

def find (a : List Byte) (idx : Byte) (suf : List Byte) : Option (List Byte) :=
  ((entries a).find? (is idx suf)).map (·.val)

/-- The writes that append an entry at `stop` and zero the rest. -/
def appendEntry (a : List Byte) (stop : Nat) (idx : Byte) (suf val : List Byte) : List Byte :=
  let a := splice a stop [idx]
  let a := splice a (stop + 1) [ofNat 8 suf.length]
  let a := splice a (stop + 2) (toLe16 (ofNat 16 val.length))
  let a := splice a (stop + 4) suf
  let a := splice a (stop + 4 + suf.length) val
  let newEnd := stop + entryLen suf val
  let a := fill a (stop + 4 + suf.length + val.length) newEnd 0
  fill a newEnd a.length 0

/-- The length of the entry that a write finds under its name. -/
def oldLen (existing : Option Item) : Nat := (existing.map fun it => entryLen it.suf it.val).getD 0

/-- The entry that was found is dropped: what is behind it slides down. -/
def dropOld (a : List Byte) (used : Nat) (existing : Option Item) : List Byte :=
  match existing with
  | some it => copyWithin a (it.off + entryLen it.suf it.val) used it.off
  | none => a

/-- `set`: the arena and its new used length, or an error. -/
def set (a : List Byte) (idx : Byte) (suf val : List Byte) (flags : BitVec 32) :
    Except Nat (List Byte × Nat) :=
  if 255 < suf.length ∨ 65535 < val.length then .error eInval
  else
    let existing := (entries a).find? (is idx suf)
    if existing.isSome ∧ flags &&& xattrCreate ≠ 0 then .error eExist
    else if existing.isNone ∧ flags &&& xattrReplace ≠ 0 then .error eNoData
    else
      let used := usedLen a
      let stop := used - oldLen existing
      -- a terminator still has to fit behind the list
      if a.length < stop + entryLen suf val + 4 then .error eNoSpc
      else .ok (appendEntry (dropOld a used existing) stop idx suf val, stop + entryLen suf val)

/-- `remove`. -/
def remove (a : List Byte) (idx : Byte) (suf : List Byte) : Except Nat (List Byte × Nat) :=
  match (entries a).find? (is idx suf) with
  | none => .error eNoData
  | some it =>
    let used := usedLen a
    let stop := used - oldLen (some it)
    .ok (fill (dropOld a used (some it)) stop a.length 0, stop)

/-! ### Attributes and their bytes -/

structure Attr where
  idx : Byte
  suf : List Byte
  val : List Byte

namespace Attr

def size (e : Attr) : Nat := entryLen e.suf e.val

def key (e : Attr) : Byte × List Byte := (e.idx, e.suf)

/-- What the header has room for; the index zero ends the list. -/
structure Fits (e : Attr) : Prop where
  idx : e.idx ≠ 0
  suf : e.suf.length ≤ 255
  val : e.val.length ≤ 65535

def bytes (e : Attr) : List Byte :=
  [e.idx, ofNat 8 e.suf.length] ++ toLe16 (ofNat 16 e.val.length) ++ e.suf ++ e.val ++
    replicate (e.size - (4 + e.suf.length + e.val.length)) 0

end Attr

theorem le_entryLen (suf val : List Byte) : 4 + suf.length + val.length ≤ entryLen suf val := by
  unfold entryLen align4
  omega

theorem Attr.length_bytes (e : Attr) : e.bytes.length = e.size := by
  have := le_entryLen e.suf e.val
  simp only [bytes, size, length_append, length_cons, List.length_nil, length_toLe16,
    length_replicate]
  omega

def encode (es : List Attr) : List Byte := es.flatMap Attr.bytes

@[simp] theorem encode_nil : encode [] = [] := rfl

@[simp] theorem encode_cons (e : Attr) (es : List Attr) : encode (e :: es) = e.bytes ++ encode es := rfl

@[simp] theorem encode_append (es es' : List Attr) : encode (es ++ es') = encode es ++ encode es' :=
  List.flatMap_append

/-- The attributes as the iterator gives them, the first one at `off`. -/
def located : Nat → List Attr → List Item
  | _, [] => []
  | off, e :: es => ⟨off, e.idx, e.suf, e.val⟩ :: located (off + e.size) es

/-- The bytes are the row of attributes and then zeros, with room for a terminator. -/
structure Holds (a : List Byte) (es : List Attr) : Prop where
  fits : ∀ e ∈ es, e.Fits
  nodup : (es.map Attr.key).Nodup
  bytes : ∃ k, 4 ≤ k ∧ a = encode es ++ replicate k 0

/-! ### Reading a row of attributes -/

/-- A byte behind a known part. -/
theorem getD_append_add (pre l : List Byte) (i : Nat) :
    (pre ++ l).getD (pre.length + i) 0 = l.getD i 0 := by
  rw [List.getD_append_right _ _ _ _ (by omega), Nat.add_sub_cancel_left]

theorem drop_append_add (pre l : List Byte) (i : Nat) :
    (pre ++ l).drop (pre.length + i) = l.drop i := by
  rw [List.drop_append, List.drop_eq_nil_of_le (by omega), Nat.add_sub_cancel_left, nil_append]

variable {e : Attr}

/-- The iterator at an entry. -/
theorem next_at_entry (he : e.Fits) (pre rest : List Byte) :
    next (pre ++ (e.bytes ++ rest)) pre.length =
      some (⟨pre.length, e.idx, e.suf, e.val⟩, pre.length + e.size) := by
  have hlen := le_entryLen e.suf e.val
  have hbytes := e.length_bytes
  -- the four bytes of the head, and then name and value behind them
  have hidx : (pre ++ (e.bytes ++ rest)).getD pre.length 0 = e.idx :=
    getD_append_add pre (e.bytes ++ rest) 0
  have hnl : ((pre ++ (e.bytes ++ rest)).getD (pre.length + 1) 0).toNat = e.suf.length := by
    rw [getD_append_add]
    exact toNat_ofNat _ _ |>.trans (Nat.mod_eq_of_lt (Nat.lt_succ_of_le he.suf))
  have hvs : (le16 (pre ++ (e.bytes ++ rest)) (pre.length + 2)).toNat = e.val.length := by
    rw [le16, Nat.add_assoc, getD_append_add, getD_append_add]
    exact (congrArg BitVec.toNat (append_toLe16 _)).trans
      (toNat_ofNat _ _ |>.trans (Nat.mod_eq_of_lt (Nat.lt_succ_of_le he.val)))
  have hbody : (e.bytes ++ rest).drop 4 = e.suf ++ (e.val ++
      (replicate (e.size - (4 + e.suf.length + e.val.length)) 0 ++ rest)) := by
    simp [Attr.bytes, toLe16]
  have htotal : (pre ++ (e.bytes ++ rest)).length = pre.length + (e.size + rest.length) := by
    rw [length_append, length_append, hbytes]
  unfold next
  -- the head lies in the arena, and so does what it announces
  rw [hidx, htotal, if_neg (not_or.mpr ⟨by unfold Attr.size; omega, he.idx⟩)]
  rw [hnl, hvs, if_neg (by unfold Attr.size; omega), Nat.add_assoc pre.length 4, drop_append_add,
    drop_append_add, ← List.drop_drop, hbody, List.drop_left, take_left, take_left]
  rfl

/-- The iterator at the end of the row. -/
theorem next_at_end (pre : List Byte) {k : Nat} (hk : 0 < k) :
    next (pre ++ replicate k 0) pre.length = none := by
  refine if_pos (.inr ?_)
  rw [show pre.length = pre.length + 0 from rfl, getD_append_add]
  cases k with
  | zero => contradiction
  | succ => rfl

theorem entriesFrom_row {es : List Attr} (hfits : ∀ e ∈ es, e.Fits) (pre : List Byte) {k : Nat}
    (hk : 0 < k) {fuel : Nat} (hfuel : es.length ≤ fuel) :
    entriesFrom (pre ++ (encode es ++ replicate k 0)) fuel pre.length =
      (located pre.length es, pre.length + (encode es).length) := by
  induction es generalizing pre fuel with
  | nil =>
    cases fuel with
    | zero => rfl
    | succ =>
      rw [entriesFrom, encode_nil, nil_append, next_at_end pre hk]
      rfl
  | cons e es ih =>
    cases fuel with
    | zero => simp at hfuel
    | succ =>
      have hrest := ih (fun x hx => hfits x (.tail _ hx)) (pre ++ e.bytes)
        (Nat.le_of_succ_le_succ hfuel)
      rw [length_append, e.length_bytes, append_assoc] at hrest
      rw [entriesFrom, encode_cons, append_assoc, next_at_entry (hfits e List.mem_cons_self)]
      simp only [hrest, located, length_append, e.length_bytes, Nat.add_assoc]

theorem length_le_encode (es : List Attr) : es.length ≤ (encode es).length := by
  induction es with
  | nil => simp
  | cons e =>
    have := le_entryLen e.suf e.val
    rw [encode_cons, length_append, e.length_bytes, length_cons, Attr.size]
    omega

namespace Holds

variable {a : List Byte} {es : List Attr} {idx : Byte} {suf : List Byte}

theorem entriesFrom_eq (h : Holds a es) :
    entriesFrom a a.length 0 = (located 0 es, (encode es).length) := by
  obtain ⟨k, hk, rfl⟩ := h.bytes
  have hfuel : es.length ≤ (encode es ++ replicate k 0).length := by
    have := length_le_encode es
    rw [length_append]
    omega
  simpa using entriesFrom_row h.fits [] (by omega) hfuel

theorem entries_eq (h : Holds a es) : entries a = located 0 es :=
  congrArg Prod.fst h.entriesFrom_eq

theorem usedLen_eq (h : Holds a es) : usedLen a = (encode es).length :=
  congrArg Prod.snd h.entriesFrom_eq

end Holds

def Attr.is (idx : Byte) (suf : List Byte) (e : Attr) : Bool := e.idx == idx && e.suf == suf

/-- The first entry of a name: what is before it and what is behind. -/
theorem find?_located (idx : Byte) (suf : List Byte) (off : Nat) (es : List Attr) :
    ((located off es).find? (is idx suf) = none ∧ es.find? (Attr.is idx suf) = none) ∨
    ∃ before e behind, es = before ++ e :: behind ∧ (∀ x ∈ before, ¬ x.is idx suf) ∧ e.is idx suf ∧
      es.find? (Attr.is idx suf) = some e ∧ (located off es).find? (is idx suf) =
        some ⟨off + (encode before).length, e.idx, e.suf, e.val⟩ := by
  induction es generalizing off with
  | nil => exact .inl ⟨rfl, rfl⟩
  | cons e es ih =>
    by_cases he : e.is idx suf
    · refine .inr ⟨[], e, es, rfl, by simp, he, List.find?_cons_of_pos he, ?_⟩
      exact List.find?_cons_of_pos he
    have hitem : ¬ is idx suf ⟨off, e.idx, e.suf, e.val⟩ := he
    rcases ih (off + e.size) with ⟨hl, hf⟩ | ⟨before, x, behind, rfl, hb, hx, hf, hl⟩
    · exact .inl ⟨(find?_cons_of_neg hitem).trans hl, (find?_cons_of_neg he).trans hf⟩
    refine .inr ⟨e :: before, x, behind, rfl, ?_, hx, (find?_cons_of_neg he).trans hf, ?_⟩
    · exact List.forall_mem_cons.mpr ⟨he, hb⟩
    · rw [located, find?_cons_of_neg hitem, hl, encode_cons, length_append,
        e.length_bytes, Nat.add_assoc]

theorem Holds.find_eq {a : List Byte} {es : List Attr} (h : Holds a es) (idx : Byte)
    (suf : List Byte) : find a idx suf = (es.find? (Attr.is idx suf)).map (·.val) := by
  rw [find, h.entries_eq]
  rcases find?_located idx suf 0 es with ⟨hl, hf⟩ | ⟨_, _, _, _, _, _, hf, hl⟩
  · rw [hl, hf]
    rfl
  · rw [hl, hf]
    rfl

/-! ### Writing -/

/-- **The writes of an append** behind a known part put the entry there and zero the rest. -/
theorem appendEntry_eq {known rest : List Byte} {stop : Nat} (hstop : stop = known.length)
    (hroom : e.size ≤ rest.length) : appendEntry (known ++ rest) stop e.idx e.suf e.val =
      known ++ (e.bytes ++ replicate (rest.length - e.size) 0) := by
  subst hstop
  have hlen := le_entryLen e.suf e.val
  have hsize : e.size = entryLen e.suf e.val := rfl
  unfold appendEntry
  dsimp only
  rw [splice_at_length rfl, splice_at_length (by simp), splice_at_length (by simp),
    splice_at_length (by simp), splice_at_length (by simp; omega)]
  -- the padding, then the zeros behind the entry
  rw [fill_at_length (by simp; omega), fill_to_end (by simp; omega) (by simp only [length_append])]
  have hpad : known.length + entryLen e.suf e.val - (known.length + 4 + e.suf.length + e.val.length) =
      e.size - (4 + e.suf.length + e.val.length) := by omega
  have hzeros : rest.length - [e.idx].length - [ofNat 8 e.suf.length].length -
      (toLe16 (ofNat 16 e.val.length)).length - e.suf.length - e.val.length -
      (e.size - (4 + e.suf.length + e.val.length)) = rest.length - e.size := by
    simp only [length_cons, List.length_nil, length_toLe16]
    omega
  simp only [hpad, List.length_drop, hzeros, append_assoc, Attr.bytes, List.cons_append, nil_append]

/-- The row without its entry of one name. -/
theorem copyWithin_entry (before behind : List Attr) (e : Attr) (zeros : List Byte) :
    ∃ rest, copyWithin (encode (before ++ e :: behind) ++ zeros)
        ((encode before).length + e.size) (encode (before ++ e :: behind)).length
        (encode before).length = encode (before ++ behind) ++ rest ∧
      rest.length = e.size + zeros.length := by
  have hmoved : ((encode (before ++ e :: behind) ++ zeros).drop ((encode before).length + e.size)).take
      ((encode (before ++ e :: behind)).length - ((encode before).length + e.size)) =
        encode behind := by
    rw [encode_append, encode_cons, append_assoc, drop_append_add, append_assoc,
      ← e.length_bytes, List.drop_left, length_append, length_append]
    rw [show (encode before).length + (e.bytes.length + (encode behind).length) -
      ((encode before).length + e.bytes.length) = (encode behind).length by omega, take_left]
  refine ⟨(e.bytes ++ (encode behind ++ zeros)).drop (encode behind).length, ?_, ?_⟩
  · rw [copyWithin, hmoved, encode_append, encode_cons, append_assoc, append_assoc,
      splice_at_length rfl, encode_append]
  · rw [List.length_drop, length_append, length_append, e.length_bytes]
    omega

theorem Attr.is_iff {idx : Byte} {suf : List Byte} : e.is idx suf ↔ e.key = (idx, suf) := by
  simp [Attr.is, Attr.key]

/-- The attributes of other names. -/
def others (idx : Byte) (suf : List Byte) (es : List Attr) : List Attr :=
  es.filter fun x => !x.is idx suf

theorem find?_others_of_ne {idx j : Byte} {suf t : List Byte} (hne : (j, t) ≠ (idx, suf))
    (es : List Attr) : (others idx suf es).find? (Attr.is j t) = es.find? (Attr.is j t) := by
  rw [others, List.find?_filter]
  congr 1
  funext x
  cases hx : x.is j t with
  | false => simp
  | true =>
    have hkey := Attr.is_iff.mp hx
    have hno : x.is idx suf = false :=
      Bool.eq_false_iff.mpr fun h => hne (hkey.symm.trans (Attr.is_iff.mp h))
    simp [hno]

theorem find?_others_self (idx : Byte) (suf : List Byte) (es : List Attr) :
    (others idx suf es).find? (Attr.is idx suf) = none := by
  rw [List.find?_eq_none]
  intro x hx
  simpa using (mem_filter.mp hx).2

namespace Holds

variable {a : List Byte} {es : List Attr} {idx : Byte} {suf : List Byte}

theorem empty {cap : Nat} (h : 4 ≤ cap) : Holds (replicate cap 0) [] :=
  ⟨by simp, by simp, cap, h, rfl⟩

/-- A row is in order whatever is left out of it. -/
theorem of_sublist {es' : List Attr} (h : Holds a es) (hsub : es'.Sublist es) {k : Nat} (hk : 4 ≤ k) :
    Holds (encode es' ++ replicate k 0) es' :=
  ⟨fun e he => h.fits e (hsub.subset he), h.nodup.sublist (hsub.map _), k, hk, rfl⟩

theorem others_of_split {before behind : List Attr} {e : Attr} (h : Holds a (before ++ e :: behind))
    (hb : ∀ x ∈ before, ¬ x.is idx suf) (he : e.is idx suf) :
    others idx suf (before ++ e :: behind) = before ++ behind := by
  have hkey := Attr.is_iff.mp he
  have hnd := h.nodup
  rw [List.map_append, List.map_cons, List.nodup_middle, List.nodup_cons] at hnd
  have hbehind : ∀ x ∈ behind, ¬ x.is idx suf := fun x hx hx' => by
    refine hnd.1 (List.mem_append_right _ (mem_map.mpr ⟨x, hx, ?_⟩))
    rw [hkey, Attr.is_iff.mp hx']
  rw [others, List.filter_append, List.filter_cons_of_neg (by simpa using he),
    List.filter_eq_self.mpr fun x hx => by simpa using hb x hx,
    List.filter_eq_self.mpr fun x hx => by simpa using hbehind x hx]

/-- **Dropping the entry of a name**, if there is one, leaves the other attributes at the start. -/
theorem dropOld_eq (h : Holds a es) (idx : Byte) (suf : List Byte) :
    ∃ rest, dropOld a (usedLen a) ((entries a).find? (is idx suf)) =
        encode (others idx suf es) ++ rest ∧
      (encode (others idx suf es)).length + oldLen ((entries a).find? (is idx suf)) = usedLen a ∧
      (encode (others idx suf es)).length + rest.length = a.length := by
  rw [h.entries_eq, h.usedLen_eq]
  rcases find?_located idx suf 0 es with ⟨hl, hf⟩ | ⟨before, e, behind, rfl, hb, he, -, hl⟩
  · -- nothing is found, so nothing moves
    have hothers : others idx suf es = es :=
      List.filter_eq_self.mpr fun x hx => by simpa using List.find?_eq_none.mp hf x hx
    obtain ⟨k, -, rfl⟩ := h.bytes
    rw [hl, hothers]
    exact ⟨replicate k 0, rfl, rfl, (length_append ..).symm⟩
  rw [Nat.zero_add] at hl
  -- what lies behind the entry moves down by its size
  have hlen : (encode (before ++ e :: behind)).length = (encode (before ++ behind)).length + e.size := by
    simp only [encode_append, encode_cons, length_append, e.length_bytes]
    omega
  rw [hl, h.others_of_split hb he]
  obtain ⟨k, -, rfl⟩ := h.bytes
  obtain ⟨rest, hcopy, hrest⟩ := copyWithin_entry before behind e (replicate k 0)
  refine ⟨rest, hcopy, ?_, ?_⟩
  · rw [hlen]
    rfl
  · rw [length_append]
    omega

variable {val : List Byte}

variable (h : Holds a es)
include h

/-- The row with an attribute appended. -/
theorem append_other (he : Attr.Fits ⟨idx, suf, val⟩) {k : Nat} (hk : 4 ≤ k) :
    Holds (encode (others idx suf es) ++ ((Attr.mk idx suf val).bytes ++ replicate k 0))
      (others idx suf es ++ [⟨idx, suf, val⟩]) := by
  refine ⟨?_, ?_, k, hk, by simp⟩
  · intro e hmem
    rcases List.mem_append.mp hmem with hmem | hmem
    · exact h.fits e (mem_filter.mp hmem).1
    · rw [List.mem_singleton.mp hmem]
      exact he
  · rw [List.map_append, List.nodup_append]
    refine ⟨h.nodup.sublist (filter_sublist.map _), by simp, ?_⟩
    rintro _ hx _ hy rfl
    obtain ⟨x, hx, hkey⟩ := mem_map.mp hx
    have hx' : x.is idx suf := Attr.is_iff.mpr (hkey.trans (List.mem_singleton.mp hy))
    simpa [hx'] using (mem_filter.mp hx).2

/-- **`set` on a row of attributes**: the attribute is behind the others. -/
theorem set_ok {flags : BitVec 32} {r : List Byte × Nat}
    (hidx : idx ≠ 0) (hset : set a idx suf val flags = .ok r) :
    Holds r.1 (others idx suf es ++ [⟨idx, suf, val⟩]) ∧ r.1.length = a.length := by
  unfold set at hset
  dsimp only at hset
  split at hset
  · contradiction
  next hsmall =>
  split at hset
  · contradiction
  split at hset
  · contradiction
  split at hset
  · contradiction
  next hroom =>
  obtain rfl := Except.ok.inj hset
  -- past the four refusals the old entry goes and the new one is appended
  obtain ⟨rest, hold, hstop, hrest⟩ := h.dropOld_eq idx suf
  have hfits : Attr.Fits ⟨idx, suf, val⟩ :=
    ⟨hidx, Nat.le_of_not_lt fun hlt => hsmall (.inl hlt), Nat.le_of_not_lt fun hlt => hsmall (.inr hlt)⟩
  have hsize : (Attr.mk idx suf val).size = entryLen suf val := rfl
  have hend := Nat.eq_sub_of_add_eq hstop
  rw [hold, ← hend, appendEntry_eq (e := ⟨idx, suf, val⟩) rfl (by omega)]
  refine ⟨h.append_other hfits (by omega), ?_⟩
  rw [length_append, length_append, length_replicate, Attr.length_bytes]
  omega

/-- **`remove` on a row of attributes.** -/
theorem remove_ok {r : List Byte × Nat} (hrem : remove a idx suf = .ok r) :
    Holds r.1 (others idx suf es) ∧ r.1.length = a.length := by
  unfold remove at hrem
  obtain ⟨rest, hold, hstop, hrest⟩ := h.dropOld_eq idx suf
  split at hrem
  · contradiction
  next it hit =>
  obtain rfl := Except.ok.inj hrem
  rw [hit] at hold hstop
  rw [hold, ← Nat.eq_sub_of_add_eq hstop, fill_to_end rfl hrest.symm]
  refine ⟨h.of_sublist filter_sublist ?_, ?_⟩
  · -- a row only gets shorter, and the old one left room for a terminator
    obtain ⟨k, hk, rfl⟩ := h.bytes
    have hle : (encode (others idx suf es)).length ≤ (encode es).length :=
      (filter_sublist.flatMap _).length_le
    rw [length_append, length_replicate] at hrest
    omega
  · rw [length_append, length_replicate, hrest]

end Holds

/-! ### Arenas -/

/-- The namespaces of attribute names. -/
inductive Index
  | user
  | aclAccess
  | aclDefault
  | trusted
  deriving DecidableEq

/-- `IDX_USER`, `IDX_ACL_ACCESS`, `IDX_ACL_DEFAULT`, `IDX_TRUSTED`. -/
def Index.toByte : Index → Byte
  | .user => 1
  | .aclAccess => 2
  | .aclDefault => 3
  | .trusted => 4

theorem Index.toByte_ne_zero (i : Index) : i.toByte ≠ 0 := by
  cases i <;> decide

theorem Index.toByte_injective : Function.Injective Index.toByte := by
  rintro (_ | _ | _ | _) (_ | _ | _ | _) h <;> first | rfl | exact absurd h (by decide)

/-- An arena of `cap` bytes. -/
structure Arena (cap : Nat) where
  bytes : List Byte
  length_eq : bytes.length = cap
  held : ∃ es, Holds bytes es

namespace Arena

variable {cap : Nat}

/-- The arena of a new inode: all zeros. -/
def empty (cap : Nat) (h : 4 ≤ cap) : Arena cap :=
  ⟨replicate cap 0, length_replicate, [], .empty h⟩

def find (a : Arena cap) (i : Index) (suf : List Byte) : Option (List Byte) :=
  Xattr.find a.bytes i.toByte suf

def set (a : Arena cap) (i : Index) (suf val : List Byte) (flags : BitVec 32) :
    Except Nat (Arena cap) :=
  match h : Xattr.set a.bytes i.toByte suf val flags with
  | .ok r =>
    have hok {es : List Attr} (hes : Holds a.bytes es) := hes.set_ok i.toByte_ne_zero h
    .ok ⟨r.1, a.held.elim fun _ hes => (hok hes).2.trans a.length_eq,
      a.held.elim fun _ hes => ⟨_, (hok hes).1⟩⟩
  | .error e => .error e

def remove (a : Arena cap) (i : Index) (suf : List Byte) : Except Nat (Arena cap) :=
  match h : Xattr.remove a.bytes i.toByte suf with
  | .ok r =>
    have hok {es : List Attr} (hes : Holds a.bytes es) := hes.remove_ok h
    .ok ⟨r.1, a.held.elim fun _ hes => (hok hes).2.trans a.length_eq,
      a.held.elim fun _ hes => ⟨_, (hok hes).1⟩⟩
  | .error e => .error e

/-- The bytes in use. -/
def used (a : Arena cap) : Nat := usedLen a.bytes

end Arena

/-! ### An arena is a finite map -/

/-- What an arena is for: a finite map from names to values, and the bytes that its entries take. -/
structure Attrs where
  value : Index × List Byte → Option (List Byte)
  used : Nat

namespace Attrs

/-- The bytes that the entry of a name takes. -/
def room (suf : List Byte) (v : Option (List Byte)) : Nat := (v.map (entryLen suf)).getD 0

variable (m : Attrs) (k : Index × List Byte)

/-- The name gets another value, or none. -/
def put (v : Option (List Byte)) : Attrs :=
  ⟨update m.value k v, m.used - room k.2 (m.value k) + room k.2 v⟩

def set (cap : Nat) (val : List Byte) (flags : BitVec 32) : Except Nat Attrs :=
  if 255 < k.2.length ∨ 65535 < val.length then .error eInval
  else if (m.value k).isSome ∧ flags &&& xattrCreate ≠ 0 then .error eExist
  else if (m.value k).isNone ∧ flags &&& xattrReplace ≠ 0 then .error eNoData
  else if cap < (m.put k (some val)).used + 4 then .error eNoSpc
  else .ok (m.put k (some val))

def remove : Except Nat Attrs :=
  if (m.value k).isNone then .error eNoData else .ok (m.put k none)

end Attrs

theorem oldLen_eq_room (a : List Byte) (idx : Byte) (suf : List Byte) :
    oldLen ((entries a).find? (is idx suf)) = Attrs.room suf (find a idx suf) := by
  unfold find
  cases hf : (entries a).find? (is idx suf) with
  | none => rfl
  | some it =>
    have hsuf : it.suf = suf := (by simpa [is] using List.find?_some hf : _ ∧ _).2
    simp [oldLen, Attrs.room, hsuf]

namespace Arena

variable {a b : Arena cap} {i j : Index} {suf t val : List Byte} {flags : BitVec 32}

/-- The map that the arena holds. -/
def view (a : Arena cap) : Attrs := ⟨fun k => a.find k.1 k.2, a.used⟩

/-- The entry of a name is dropped, and one with its new value is appended. -/
theorem view_eq_put {es : List Attr} {v : Option (List Byte)} (h : Holds a.bytes es)
    (hb : Holds b.bytes (others i.toByte suf es ++ (v.map (Attr.mk i.toByte suf)).toList)) :
    b.view = a.view.put (i, suf) v := by
  refine (Attrs.mk.injEq ..).mpr ⟨funext fun k => ?_, ?_⟩
  · rw [find, hb.find_eq, List.find?_append]
    by_cases hk : k = (i, suf)
    · rw [hk, update_self, find?_others_self]
      cases v <;> simp [Attr.is]
    · have hne : (k.1.toByte, k.2) ≠ (i.toByte, suf) := fun he =>
        hk (Prod.ext (Index.toByte_injective (congrArg Prod.fst he)) (congrArg Prod.snd he :))
      have hnew : (v.map (Attr.mk i.toByte suf)).toList.find? (Attr.is k.1.toByte k.2) = none := by
        refine List.find?_eq_none.mpr fun e he hx => hne ?_
        obtain ⟨w, -, rfl⟩ := Option.map_eq_some_iff.mp (Option.mem_toList.mp he)
        exact (Attr.is_iff.mp hx).symm
      rw [update_of_ne hk, find?_others_of_ne hne, hnew, Option.or_none]
      exact (h.find_eq ..).symm
  · -- the old entry gave its room back before the new one took its own
    obtain ⟨-, -, hlen, -⟩ := h.dropOld_eq i.toByte suf
    rw [used, hb.usedLen_eq, encode_append, length_append]
    rw [oldLen_eq_room] at hlen
    have hnew : (encode (v.map (Attr.mk i.toByte suf)).toList).length = Attrs.room suf v := by
      cases v with
      | none => rfl
      | some val => exact (congrArg List.length (List.append_nil _)).trans (Attr.length_bytes _)
    exact hnew ▸ congrArg (· + _) (Nat.eq_sub_of_add_eq hlen)

/-- **`set` on the arena is `set` on the map**, with the same errors. -/
theorem view_set {r : Except Nat (Arena cap)} (h : a.set i suf val flags = r) :
    a.view.set (i, suf) cap val flags = r.map view := by
  subst h
  symm
  obtain ⟨es, hes⟩ := a.held
  have hvalue : a.view.value (i, suf) = ((entries a.bytes).find? (is i.toByte suf)).map (·.val) := rfl
  have hused : (a.view.put (i, suf) (some val)).used =
      usedLen a.bytes - oldLen ((entries a.bytes).find? (is i.toByte suf)) + entryLen suf val := by
    rw [oldLen_eq_room]
    rfl
  rw [Attrs.set, hvalue, hused, Option.isSome_map, Option.isNone_map]
  unfold set
  split
  · next r hr =>
    refine (congrArg Except.ok
      (view_eq_put (v := some val) hes (hes.set_ok i.toByte_ne_zero hr).1)).trans ?_
    simp only [Xattr.set, a.length_eq] at hr
    -- the same four questions, asked of the bytes and of the map
    split_ifs at hr ⊢
    rfl
  · next e hr =>
    simp only [Xattr.set, a.length_eq] at hr
    split_ifs at hr ⊢ <;> exact congrArg Except.error (Except.error.inj hr).symm

theorem view_remove {r : Except Nat (Arena cap)} (h : a.remove i suf = r) :
    a.view.remove (i, suf) = r.map view := by
  subst h
  symm
  obtain ⟨es, hes⟩ := a.held
  have hvalue : a.view.value (i, suf) = ((entries a.bytes).find? (is i.toByte suf)).map (·.val) := rfl
  rw [Attrs.remove, hvalue]
  unfold remove
  split
  · next r hr =>
    refine (congrArg Except.ok
      (view_eq_put (v := none) hes (by simpa using (hes.remove_ok hr).1))).trans ?_
    unfold Xattr.remove at hr
    split at hr
    · contradiction
    · next hit => rw [hit, if_neg (by simp)]
  · next e hr =>
    unfold Xattr.remove at hr
    split at hr
    · next hit =>
      cases hr
      rw [hit]
      rfl
    · contradiction

theorem view_of_set (h : a.set i suf val flags = .ok b) : b.view = a.view.put (i, suf) (some val) := by
  have hmap : a.view.set (i, suf) cap val flags = .ok b.view := view_set h
  unfold Attrs.set at hmap
  split_ifs at hmap
  exact (Except.ok.inj hmap).symm

theorem view_of_remove (h : a.remove i suf = .ok b) : b.view = a.view.put (i, suf) none := by
  have hmap : a.view.remove (i, suf) = .ok b.view := view_remove h
  unfold Attrs.remove at hmap
  split_ifs at hmap
  exact (Except.ok.inj hmap).symm

/-- **An attribute that is set is found**, and the others are as they were. -/
theorem find_set (h : a.set i suf val flags = .ok b) (j : Index) (t : List Byte) :
    b.find j t = if (j, t) = (i, suf) then some val else a.find j t :=
  (congrArg (·.value (j, t)) (view_of_set h)).trans (update_apply ..)

/-- **An attribute that is removed is not found.** -/
theorem find_remove (h : a.remove i suf = .ok b) (j : Index) (t : List Byte) :
    b.find j t = if (j, t) = (i, suf) then none else a.find j t :=
  (congrArg (·.value (j, t)) (view_of_remove h)).trans (update_apply ..)

/-- `remove` fails for want of the attribute only. -/
theorem find_of_remove_error {e : Nat} (h : a.remove i suf = .error e) : a.find i suf = none := by
  have hmap : a.view.remove (i, suf) = .error e := view_remove h
  unfold Attrs.remove at hmap
  split_ifs at hmap with hnone
  exact Option.isNone_iff_eq_none.mp hnone

@[simp] theorem find_empty (h : 4 ≤ cap) (i : Index) (suf : List Byte) :
    (empty cap h).find i suf = none :=
  (Holds.empty h).find_eq i.toByte suf

theorem used_empty (h : 4 ≤ cap) : (empty cap h).used = 0 := (Holds.empty h).usedLen_eq

theorem used_set_le (h : a.set i suf val flags = .ok b) : b.used ≤ a.used + entryLen suf val := by
  have hused : b.used = a.used - _ + entryLen suf val := congrArg Attrs.used (view_of_set h)
  omega

/-- Without flags, all that `set` asks for is room. -/
theorem set_zero_ok (hsuf : suf.length ≤ 255) (hval : val.length ≤ 65535)
    (hroom : a.used - Attrs.room suf (a.find i suf) + entryLen suf val + 4 ≤ cap) :
    ∃ b, a.set i suf val 0 = .ok b := by
  cases hb : a.set i suf val 0 with
  | ok b => exact ⟨b, rfl⟩
  | error e =>
    have hmap : a.view.set (i, suf) cap val 0 = .error e := view_set hb
    have hroom' : ¬ cap < (a.view.put (i, suf) (some val)).used + 4 := Nat.not_lt.mpr hroom
    simp [Attrs.set, hroom', Nat.not_lt.mpr hsuf, Nat.not_lt.mpr hval] at hmap

/-- An attribute may be set again to a value of the length it has: the arena stays as full. -/
theorem set_same_length {v : List Byte} (hfind : a.find i suf = some v)
    (hlen : val.length = v.length) : ∃ b, a.set i suf val 0 = .ok b := by
  obtain ⟨es, hes⟩ := a.held
  obtain ⟨e, hf, rfl⟩ := Option.map_eq_some_iff.mp ((hes.find_eq ..).symm.trans hfind)
  have hfits := hes.fits e (List.mem_of_find?_eq_some hf)
  have hsuf : e.suf = suf := (Prod.ext_iff.mp (Attr.is_iff.mp (List.find?_some hf))).2
  refine set_zero_ok (hsuf ▸ hfits.suf) (hlen ▸ hfits.val) ?_
  have hroom : Attrs.room suf (a.find i suf) = entryLen suf val := by
    rw [hfind, Attrs.room, Option.map_some, Option.getD_some, entryLen, entryLen, hlen]
  have hused : a.used + 4 ≤ cap := by
    obtain ⟨k, hk, hbytes⟩ := hes.bytes
    rw [used, hes.usedLen_eq, ← a.length_eq, hbytes, length_append, length_replicate]
    omega
  obtain ⟨-, -, hstop, -⟩ := hes.dropOld_eq i.toByte suf
  rw [oldLen_eq_room] at hstop
  change _ + Attrs.room suf (a.find i suf) = a.used at hstop
  omega

end Arena

/-! ### Any run of calls -/

/-- A call that writes attributes. -/
inductive Write
  | set (k : Index × List Byte) (val : List Byte) (flags : BitVec 32)
  | remove (k : Index × List Byte)

def Arena.write {cap : Nat} (a : Arena cap) : Write → Except Nat (Arena cap)
  | .set k val flags => a.set k.1 k.2 val flags
  | .remove k => a.remove k.1 k.2

def Attrs.write (cap : Nat) (m : Attrs) : Write → Except Nat Attrs
  | .set k val flags => m.set k cap val flags
  | .remove k => m.remove k

/-- The answers to calls (`none`: success) and what they leave; one that fails changes nothing. -/
def serve {σ : Type} (step : σ → Write → Except Nat σ) : σ → List Write → List (Option Nat) × σ
  | s, [] => ([], s)
  | s, c :: cs =>
    match step s c with
    | .ok s' => (serve step s' cs).map (none :: ·) id
    | .error e => (serve step s cs).map (some e :: ·) id

theorem Arena.view_write {cap : Nat} (a : Arena cap) (c : Write) :
    a.view.write cap c = (a.write c).map view := by
  cases c with
  | set => exact view_set rfl
  | remove => exact view_remove rfl

theorem serve_view {cap : Nat} (calls : List Write) : ∀ a : Arena cap,
    serve (Attrs.write cap) a.view calls = (serve Arena.write a calls).map id Arena.view := by
  induction calls with
  | nil => exact fun _ => rfl
  | cons c cs ih =>
    intro a
    rw [serve, serve, a.view_write]
    cases a.write c with
    | ok b => exact congrArg (Prod.map _ _) (ih b)
    | error e => exact congrArg (Prod.map _ _) (ih a)

/-- **The arena is a finite map.** Every run of calls on a new arena is answered as the map answers
it, error by error, and leaves the arena with the attributes and the used bytes of the map. -/
theorem arena_refines_map {cap : Nat} (h : 4 ≤ cap) (calls : List Write) :
    (serve Arena.write (.empty cap h) calls).map id Arena.view =
      serve (Attrs.write cap) ⟨fun _ => none, 0⟩ calls := by
  have hempty : (Arena.empty cap h).view = ⟨fun _ => none, 0⟩ :=
    (Attrs.mk.injEq ..).mpr ⟨funext fun k => Arena.find_empty h k.1 k.2, Arena.used_empty h⟩
  rw [← hempty, serve_view]

theorem arena_refines_map_full : 4 ≤ 16 ∧ ((serve Arena.write (.empty 16 (by decide))
    [.set (.user, [7]) [1] 0, .set (.user, [8]) [1] 0]).map id Arena.view).1 = [none, some eNoSpc] :=
  ⟨by decide, by rw [arena_refines_map]; decide⟩

end Leandros.Xattr
