import Leandros.Lib.PosixAcl
import Leandros.Xattr.Arena

/-!
# Leandros.Xattr.Acl

POSIX ACLs as attribute values (`servers/xattr/src/lib.rs`, from "POSIX ACL wire format" on): a
version and a row of entries of eight bytes. `aclValidate`, `aclChmodRewrite`, `accessCheck` and
`aclCreate` work on the bytes, as the code does.

`Reads v acl` says that the bytes `v` are those of the ACL `acl`. A value is accepted by
`aclValidate` just in case it reads as some ACL (`aclValidate_iff`), and the other three functions are
then the operations on that ACL: `Reads.aclChmodRewrite`, `HasAcl.accessCheck_eq`,
`Reads.aclCreate`.
-/

namespace Leandros.Xattr

open BitVec (ofBool)
open List (foldl_append foldl_cons isEmpty map_append map_cons map_eq_cons_iff map_map mem_map
  range zipIdx_append zipIdx_cons)

/-! ### The wire format -/

abbrev Id := BitVec 32

/-- `ACL_HDR`. -/
def aclHdr : Nat := 4

/-- `ACL_ENT`. -/
def aclEnt : Nat := 8

inductive AclTag
  | userObj
  | user
  | groupObj
  | group
  | mask
  | other
  | unknown
  deriving DecidableEq

/-- `ACL_USER_OBJ` to `ACL_OTHER`; nothing else is a tag. -/
def AclTag.ofBits (b : BitVec 16) : AclTag :=
  if b = 0x01 then .userObj
  else if b = 0x02 then .user
  else if b = 0x04 then .groupObj
  else if b = 0x08 then .group
  else if b = 0x10 then .mask
  else if b = 0x20 then .other
  else .unknown

/-- The permissions of an entry are the low three bits of their word. -/
structure AclEntry where
  tag : AclTag
  perm : Perm
  id : Id
  deriving DecidableEq

def aclEntry (value : List Byte) (i : Nat) : AclEntry :=
  let o := aclHdr + i * aclEnt
  ⟨.ofBits (le16 value o), (le16 value (o + 2)).setWidth 3, le32 value (o + 4)⟩

def aclEntryCount (value : List Byte) : Nat := (value.length - aclHdr) / aclEnt

/-- The entries as the loops over an ACL go through them. -/
def aclEntries (value : List Byte) : List AclEntry :=
  (range (aclEntryCount value)).map (aclEntry value)

/-- The permissions of entry `i` are overwritten. -/
def setPerm (value : List Byte) (i : Nat) (p : Perm) : List Byte :=
  splice value (aclHdr + i * aclEnt + 2) (toLe16 (p.setWidth 16))

/-! ### Validation -/

structure AclSummary where
  userObj : Perm
  groupObj : Perm
  other : Perm
  mask : Option Perm
  hasNamed : Bool
  deriving DecidableEq

/-- The entry that the last step of the canonical order was for. -/
inductive AclPhase
  | start
  | userObj
  | groupObj
  | mask
  | other
  deriving DecidableEq

/-- The loop of `acl_validate` and the checks behind it. -/
def aclValidateLoop : List AclEntry → AclPhase → AclSummary → Option Id → Except Nat AclSummary
  | [], phase, s, _ =>
    if phase ≠ .other then .error eInval
    else if s.hasNamed && s.mask.isNone then .error eInval
    else .ok s
  | e :: es, phase, s, last =>
    match e.tag, phase with
    | .userObj, .start => aclValidateLoop es .userObj { s with userObj := e.perm } last
    | .user, .userObj =>
      if last.any (e.id ≤ ·) then .error eInval
      else aclValidateLoop es .userObj { s with hasNamed := true } (some e.id)
    | .groupObj, .userObj => aclValidateLoop es .groupObj { s with groupObj := e.perm } none
    | .group, .groupObj =>
      if last.any (e.id ≤ ·) then .error eInval
      else aclValidateLoop es .groupObj { s with hasNamed := true } (some e.id)
    | .mask, .groupObj => aclValidateLoop es .mask { s with mask := some e.perm } last
    | .other, .groupObj => aclValidateLoop es .other { s with other := e.perm } last
    | .other, .mask => aclValidateLoop es .other { s with other := e.perm } last
    | _, _ => .error eInval

theorem aclValidateLoop_nil (phase : AclPhase) (s : AclSummary) (last : Option Id) :
    aclValidateLoop [] phase s last = if phase ≠ .other then .error eInval
      else if s.hasNamed && s.mask.isNone then .error eInval else .ok s := by
  rw [aclValidateLoop]

def aclValidate (value : List Byte) : Except Nat AclSummary :=
  if value.length < aclHdr ∨ (value.length - aclHdr) % aclEnt ≠ 0 ∨ le32 value 0 ≠ 2 then .error eInval
  else aclValidateLoop (aclEntries value) .start ⟨0, 0, 0, none, false⟩ none

def aclIsTrivial (s : AclSummary) : Bool := !s.hasNamed && s.mask.isNone

/-- The nine permission bits of the mode. -/
def aclModeBits (s : AclSummary) : BitVec 16 :=
  (s.userObj.setWidth 16 <<< 6) ||| ((s.mask.getD s.groupObj).setWidth 16 <<< 3) |||
    s.other.setWidth 16

/-! ### chmod -/

/-- The bits of a class in a mode: `(mode >> 6) & 7`, `(mode >> 3) & 7` and `mode & 7`. -/
def ownerBits {w : Nat} (mode : BitVec w) : Perm := (mode >>> 6).setWidth 3

def groupBits {w : Nat} (mode : BitVec w) : Perm := (mode >>> 3).setWidth 3

def otherBits {w : Nat} (mode : BitVec w) : Perm := mode.setWidth 3

/-- What `chmod` puts into an entry. -/
def chmodPerm (hasMask : Bool) (mode : BitVec 16) : AclTag → Option Perm
  | .userObj => some (ownerBits mode)
  | .other => some (otherBits mode)
  | .mask => some (groupBits mode)
  | .groupObj => if hasMask then none else some (groupBits mode)
  | _ => none

def aclChmodRewrite (value : List Byte) (mode : BitVec 16) : List Byte :=
  let n := aclEntryCount value
  let hasMask := (range n).any fun i => (aclEntry value i).tag = .mask
  (range n).foldl (fun v i =>
    match chmodPerm hasMask mode (aclEntry v i).tag with
    | some p => setPerm v i p
    | none => v) value

/-! ### The access check -/

structure FileMeta where
  /-- With the type bits of `S_IFMT`. -/
  mode : BitVec 16
  uid : Id
  gid : Id

structure Cred where
  euid : Id
  egid : Id
  /-- The supplementary groups in use. -/
  groups : List Id

def Cred.inGroup (c : Cred) (gid : Id) : Bool := c.egid == gid || c.groups.contains gid

def sIfmt : BitVec 16 := 0o170000
def sIfdir : BitVec 16 := 0o040000
def sIfreg : BitVec 16 := 0o100000
def sIflnk : BitVec 16 := 0o120000
def sIsvtx : BitVec 16 := 0o001000

def isDir (mode : BitVec 16) : Bool := mode &&& sIfmt == sIfdir

def isReg (mode : BitVec 16) : Bool := mode &&& sIfmt == sIfreg

def isLnk (mode : BitVec 16) : Bool := mode &&& sIfmt == sIflnk

/-- The loop of `acl_walk`; `found` says that a group entry has the caller. -/
def aclWalkLoop (m : FileMeta) (cred : Cred) (want : Perm) (mask : Option Perm) :
    List AclEntry → Bool → Bool
  | [], _ => false
  | e :: es, found =>
    let masked := e.perm &&& mask.getD 7
    match e.tag with
    | .userObj =>
      if cred.euid = m.uid then e.perm.covers want else aclWalkLoop m cred want mask es found
    | .user =>
      if cred.euid = e.id then masked.covers want else aclWalkLoop m cred want mask es found
    | .groupObj =>
      if cred.inGroup m.gid then masked.covers want || aclWalkLoop m cred want mask es true
      else aclWalkLoop m cred want mask es found
    | .group =>
      if cred.inGroup e.id then masked.covers want || aclWalkLoop m cred want mask es true
      else aclWalkLoop m cred want mask es found
    | .other => if found then false else e.perm.covers want
    | _ => aclWalkLoop m cred want mask es found

def aclWalk (value : List Byte) (m : FileMeta) (cred : Cred) (want : Perm) : Bool :=
  let mask := ((aclEntries value).find? (·.tag = .mask)).map (·.perm)
  aclWalkLoop m cred want mask (aclEntries value) false

def accessCheck (m : FileMeta) (cred : Cred) (acl : Option (List Byte))
    (wantR wantW wantX : Bool) : Bool :=
  let want : Perm := ofBool wantR ++ ofBool wantW ++ ofBool wantX
  if cred.euid = 0 then
    if wantX && !isDir m.mode then m.mode &&& 0o111 != 0 else true
  else
    -- a corrupt ACL falls through to the mode bits
    match acl.filter fun v => (aclValidate v).isOk with
    | some v => aclWalk v m cred want
    | none =>
      let bits := if cred.euid = m.uid then ownerBits m.mode
        else if cred.inGroup m.gid then groupBits m.mode
        else otherBits m.mode
      bits.covers want

/-- `may_write_xattr`. -/
def mayWriteXattr (idx : Index) (m : FileMeta) (cred : Cred) (acl : Option (List Byte)) :
    Except Nat Unit :=
  if isLnk m.mode then .error ePerm
  else match idx with
    | .user =>
      if !isReg m.mode && !isDir m.mode then .error ePerm
      else if isDir m.mode && m.mode &&& sIsvtx != 0 && cred.euid != m.uid && cred.euid != 0 then
        .error ePerm
      else if accessCheck m cred acl false true false then .ok () else .error eAcces
    | .aclAccess => if cred.euid != m.uid && cred.euid != 0 then .error ePerm else .ok ()
    | .aclDefault =>
      if cred.euid != m.uid && cred.euid != 0 then .error ePerm
      else if !isDir m.mode then .error eAcces
      else .ok ()
    | .trusted => if cred.euid == 0 then .ok () else .error ePerm

/-! ### Creation -/

/-- `ACL_INHERIT_MAX`. -/
def aclInheritMax : Nat := aclHdr + 32 * aclEnt

structure Created where
  /-- The permission and set-id bits of the mode. -/
  mode : BitVec 16
  /-- The access ACL to store; empty for none. -/
  access : List Byte
  inheritDefault : Bool

/-- The variables of the loop of `acl_create`. -/
structure Masq where
  clone : List Byte
  userPerm : Perm
  otherPerm : Perm
  notEquiv : Bool
  maskIdx : Option Nat
  groupObjIdx : Option Nat

/-- The loop's body, for entry `i` of the default ACL. -/
def masqStep (m : Masq) (e : AclEntry) (i : Nat) : Masq :=
  match e.tag with
  | .userObj =>
    let p := e.perm &&& m.userPerm
    { m with clone := setPerm m.clone i p, userPerm := p }
  | .other =>
    let p := e.perm &&& m.otherPerm
    { m with clone := setPerm m.clone i p, otherPerm := p }
  | .mask => { m with maskIdx := some i }
  | .groupObj => { m with groupObjIdx := some i }
  | .user | .group => { m with notEquiv := true }
  | .unknown => m

/-- The loop of `acl_create` over the default ACL. -/
def masq (dacl : List Byte) (mode : BitVec 16) : Masq :=
  (aclEntries dacl).zipIdx.foldl (fun m e => masqStep m e.1 e.2)
    ⟨dacl, ownerBits mode, otherBits mode, false, none, none⟩

/-- `acl_create`. -/
def aclCreate (defaultAcl : Option (List Byte)) (mode umask : BitVec 16) (isDir : Bool) : Created :=
  let plain : Created := ⟨(mode &&& 0o7777) &&& ~~~(umask &&& 0o777), [], false⟩
  match defaultAcl.filter fun v => v.length ≤ aclInheritMax ∧ (aclValidate v).isOk with
  | none => plain
  | some dacl =>
    let m := masq dacl mode
    match m.maskIdx <|> m.groupObjIdx with
    | none => plain
    | some gi =>
      let p := (aclEntry dacl gi).perm &&& groupBits mode
      let clone := setPerm m.clone gi p
      let mode' := (mode &&& 0o7000#16) ||| (m.userPerm.setWidth 16 <<< 6) |||
        (p.setWidth 16 <<< 3) ||| m.otherPerm.setWidth 16
      ⟨mode', if m.notEquiv || m.maskIdx.isSome then clone else [], isDir⟩

/-! ### The ACL that a value reads as -/

/-- An entry in the terms of an ACL. -/
def AclEntry.view (e : AclEntry) : Option (AclEnt Id) :=
  match e.tag with
  | .userObj => some (.userObj e.perm)
  | .user => some (.user e.id e.perm)
  | .groupObj => some (.groupObj e.perm)
  | .group => some (.group e.id e.perm)
  | .mask => some (.mask e.perm)
  | .other => some (.other e.perm)
  | .unknown => none

/-- What an entry says. -/
def AclEntry.Says (e : AclEntry) : AclEnt Id → Prop
  | .userObj p => e.tag = .userObj ∧ e.perm = p
  | .user id p => e.tag = .user ∧ e.perm = p ∧ e.id = id
  | .groupObj p => e.tag = .groupObj ∧ e.perm = p
  | .group id p => e.tag = .group ∧ e.perm = p ∧ e.id = id
  | .mask p => e.tag = .mask ∧ e.perm = p
  | .other p => e.tag = .other ∧ e.perm = p

theorem of_view {e : AclEntry} {a : AclEnt Id} (h : e.view = some a) : e.Says a := by
  obtain ⟨tag, p, id⟩ := e
  cases tag <;> simp only [AclEntry.view, Option.some.injEq, reduceCtorEq] at h <;> subst h <;>
    simp [AclEntry.Says]

theorem of_views {es : List AclEntry} {a : AclEnt Id} {as : List (Option (AclEnt Id))}
    (h : es.map AclEntry.view = some a :: as) :
    ∃ e es', es = e :: es' ∧ e.Says a ∧ es'.map AclEntry.view = as := by
  obtain ⟨e, es', he, hv, hes⟩ := map_eq_cons_iff.mp h
  exact ⟨e, es', he, of_view hv, hes⟩

structure Reads (v : List Byte) (acl : Acl Id) : Prop where
  hdr : aclHdr ≤ v.length
  ent : (v.length - aclHdr) % aclEnt = 0
  version : le32 v 0 = 2
  entries : (aclEntries v).map AclEntry.view = acl.entries.map some

/-- `AclSummary` of a valid ACL. -/
def summary (acl : Acl Id) : AclSummary :=
  ⟨acl.userObj, acl.groupObj, acl.other, acl.mask, !acl.users.isEmpty || !acl.groups.isEmpty⟩

/-! ### Validation accepts what reads as an ACL -/

section Validate

variable {es : List AclEntry} {s s' : AclSummary} {last : Option Id}

/-- Named entries are above the last one and in order. -/
def Above (last : Option Id) (named : List (Id × Perm)) : Prop :=
  named.Pairwise (·.1 < ·.1) ∧ ∀ l ∈ last, ∀ e ∈ named, l < e.1

theorem above_cons {e : Id × Perm} {named : List (Id × Perm)} :
    Above last (e :: named) ↔ (∀ l ∈ last, l < e.1) ∧ Above (some e.1) named := by
  simp only [Above, List.pairwise_cons, List.mem_cons, forall_eq_or_imp, Option.mem_some_iff,
    forall_eq']
  constructor
  · rintro ⟨⟨hhead, htail⟩, hlast⟩
    exact ⟨fun l hl => (hlast l hl).1, htail, hhead⟩
  · rintro ⟨hlast, htail, hhead⟩
    exact ⟨⟨hhead, htail⟩,
      fun l hl => ⟨hlast l hl, fun x hx => BitVec.lt_trans (hlast l hl) (hhead x hx)⟩⟩

theorem not_any_le_iff {id : Id} : ¬ last.any (id ≤ ·) = true ↔ ∀ l ∈ last, l < id := by
  cases last <;> simp

/-- The entries behind the owning group. -/
def groupRow (gs : List (Id × Perm)) (mk : Option Perm) (o : Perm) : List (AclEnt Id) :=
  gs.map (fun e => .group e.1 e.2) ++ (mk.map .mask).toList ++ [.other o]

/-- The entries behind the owner. -/
def userRow (us : List (Id × Perm)) (g : Perm) (row : List (AclEnt Id)) : List (AclEnt Id) :=
  us.map (fun e => .user e.1 e.2) ++ .groupObj g :: row

/-- Behind the last entry. -/
theorem validate_other : aclValidateLoop es .other s last = .ok s' ↔
      es = [] ∧ s' = s ∧ (s.hasNamed → s.mask.isSome) := by
  cases es with
  | nil =>
    cases hn : s.hasNamed <;> cases hm : s.mask <;> simp [aclValidateLoop_nil, hn, hm, eq_comm]
  | cons e =>
    obtain ⟨tag, p, id⟩ := e
    cases tag <;> simp [aclValidateLoop]

/-- Behind the mask. -/
theorem validate_mask : aclValidateLoop es .mask s last = .ok s' ↔
      ∃ o, es.map AclEntry.view = [some (.other o)] ∧ s' = { s with other := o } ∧
        (s.hasNamed → s.mask.isSome) := by
  cases es with
  | nil => simp [aclValidateLoop_nil]
  | cons e =>
    obtain ⟨tag, p, id⟩ := e
    cases tag <;> simp [aclValidateLoop, AclEntry.view, validate_other]

/-- Behind the owning group there are named groups in order, a mask if there is one, the others. -/
theorem of_validate_groupObj (hm : s.mask = none)
    (h : aclValidateLoop es .groupObj s last = .ok s') :
    ∃ gs mk o, es.map AclEntry.view = (groupRow gs mk o).map some ∧ Above last gs ∧
      s' = { s with other := o, mask := mk, hasNamed := s.hasNamed || !gs.isEmpty } ∧
      (s'.hasNamed → mk.isSome) := by
  induction es generalizing s last with
  | nil => simp [aclValidateLoop_nil] at h
  | cons e es ih =>
    obtain ⟨tag, p, id⟩ := e
    cases tag with
    | group =>
      simp only [aclValidateLoop] at h
      split at h
      · contradiction
      next hany =>
      -- one more named group, above the last; the flag is set for the rest
      obtain ⟨gs, mk, o, hes, habove, hs, hnm⟩ := ih (s := { s with hasNamed := true }) hm h
      refine ⟨(id, p) :: gs, mk, o, ?_, above_cons.mpr ⟨not_any_le_iff.mp hany, habove⟩, ?_, hnm⟩
      · rw [map_cons, hes]
        rfl
      · simpa using hs
    | mask =>
      simp only [aclValidateLoop, validate_mask] at h
      obtain ⟨o, hes, rfl, hnm⟩ := h
      exact ⟨[], some p, o, by rw [map_cons, hes]; rfl, ⟨.nil, by simp⟩, by simp, by simp⟩
    | other =>
      simp only [aclValidateLoop, validate_other] at h
      obtain ⟨rfl, rfl, hnm⟩ := h
      refine ⟨[], none, p, rfl, ⟨.nil, by simp⟩, by simp [hm], ?_⟩
      simpa [hm] using hnm
    | userObj | user | groupObj | unknown => simp [aclValidateLoop] at h

/-- Behind the owner there are named users in order and the owning group. -/
theorem of_validate_userObj (hm : s.mask = none) (h : aclValidateLoop es .userObj s last = .ok s') :
    ∃ us gs mk g o, es.map AclEntry.view = (userRow us g (groupRow gs mk o)).map some ∧ Above last us ∧
      Above none gs ∧
      s' = { s with
        groupObj := g, other := o, mask := mk
        hasNamed := s.hasNamed || !us.isEmpty || !gs.isEmpty } ∧
      (s'.hasNamed → mk.isSome) := by
  induction es generalizing s last with
  | nil => simp [aclValidateLoop_nil] at h
  | cons e es ih =>
    obtain ⟨tag, p, id⟩ := e
    cases tag with
    | user =>
      simp only [aclValidateLoop] at h
      split at h
      · contradiction
      next hany =>
      -- one more named user; the groups start again without a last one
      obtain ⟨us, gs, mk, g, o, hes, habove, hgs, hs, hnm⟩ :=
        ih (s := { s with hasNamed := true }) hm h
      refine ⟨(id, p) :: us, gs, mk, g, o, ?_, above_cons.mpr ⟨not_any_le_iff.mp hany, habove⟩, hgs,
        ?_, hnm⟩
      · rw [map_cons, hes]
        rfl
      · simpa using hs
    | groupObj =>
      obtain ⟨gs, mk, o, hes, habove, hs, hnm⟩ :=
        of_validate_groupObj (s := { s with groupObj := p }) hm h
      refine ⟨[], gs, mk, p, o, ?_, ⟨.nil, by simp⟩, habove, ?_, hnm⟩
      · rw [map_cons, hes]
        rfl
      · simpa using hs
    | userObj | group | mask | other | unknown => simp [aclValidateLoop] at h

theorem of_validate_start (h : aclValidateLoop es .start ⟨0, 0, 0, none, false⟩ none = .ok s') :
    ∃ acl : Acl Id, es.map AclEntry.view = acl.entries.map some ∧ s' = summary acl := by
  cases es with
  | nil => simp [aclValidateLoop_nil] at h
  | cons e =>
    obtain ⟨tag, p, id⟩ := e
    cases tag with
    | userObj =>
      obtain ⟨us, gs, mk, g, o, hes, hus, hgs, rfl, hnm⟩ := of_validate_userObj rfl h
      refine ⟨⟨p, us, g, gs, mk, o, hus.1, hgs.1, fun hne => hnm ?_⟩, ?_, rfl⟩
      · simpa using hne
      · rw [map_cons, hes]
        rfl
    | user | groupObj | group | mask | other | unknown => simp [aclValidateLoop] at h

/-- The loop over the row behind the owning group. -/
theorem validate_groupRow {gs : List (Id × Perm)} {mk : Option Perm} {o : Perm}
    (hes : es.map AclEntry.view = (groupRow gs mk o).map some) (habove : Above last gs)
    (hm : s.mask = none) (hnm : s.hasNamed || !gs.isEmpty → mk.isSome) :
    aclValidateLoop es .groupObj s last =
      .ok { s with other := o, mask := mk, hasNamed := s.hasNamed || !gs.isEmpty } := by
  induction gs generalizing es s last with
  | nil =>
    cases mk with
    | none =>
      obtain ⟨e, es, rfl, ⟨htag, hperm⟩, hes⟩ := of_views hes
      simp only [aclValidateLoop, htag, hperm, validate_other]
      exact ⟨List.map_eq_nil_iff.mp hes, by simp [hm], by simpa [hm] using hnm⟩
    | some =>
      obtain ⟨e, es, rfl, ⟨htag, hperm⟩, hes⟩ := of_views hes
      simp only [aclValidateLoop, htag, hperm, validate_mask]
      exact ⟨o, hes, by simp, by simp⟩
  | cons g gs ih =>
    obtain ⟨e, es, rfl, ⟨htag, hperm, hid⟩, hes⟩ := of_views hes
    -- the rest of the row starts above this group
    obtain ⟨hlast, habove⟩ := above_cons.mp habove
    simp only [aclValidateLoop, htag, hid]
    have hmk : mk.isSome := hnm (by simp)
    rw [if_neg (not_any_le_iff.mpr hlast),
      ih (s := { s with hasNamed := true }) hes habove hm fun _ => hmk]
    simp

/-- The loop over the row behind the owner. -/
theorem validate_userRow {us gs : List (Id × Perm)} {mk : Option Perm} {g o : Perm}
    (hes : es.map AclEntry.view = (userRow us g (groupRow gs mk o)).map some) (hus : Above last us)
    (hgs : Above none gs) (hm : s.mask = none)
    (hnm : s.hasNamed || !us.isEmpty || !gs.isEmpty → mk.isSome) :
    aclValidateLoop es .userObj s last = .ok { s with
      groupObj := g, other := o, mask := mk
      hasNamed := s.hasNamed || !us.isEmpty || !gs.isEmpty } := by
  induction us generalizing es s last with
  | nil =>
    obtain ⟨e, es, rfl, ⟨htag, hperm⟩, hes⟩ := of_views hes
    simp only [aclValidateLoop, htag, hperm]
    rw [validate_groupRow (s := { s with groupObj := g }) hes hgs hm (by simpa using hnm)]
    simp
  | cons u us ih =>
    obtain ⟨e, es, rfl, ⟨htag, hperm, hid⟩, hes⟩ := of_views hes
    obtain ⟨hlast, hus⟩ := above_cons.mp hus
    simp only [aclValidateLoop, htag, hid]
    have hmk : mk.isSome := hnm (by simp)
    rw [if_neg (not_any_le_iff.mpr hlast),
      ih (s := { s with hasNamed := true }) hes hus hm fun _ => hmk]
    simp

end Validate

variable {v : List Byte} {acl : Acl Id} {w : Nat}

theorem Reads.aclValidate_eq (h : Reads v acl) : aclValidate v = .ok (summary acl) := by
  have hok : ¬ (v.length < aclHdr ∨ (v.length - aclHdr) % aclEnt ≠ 0 ∨ le32 v 0 ≠ 2) := by
    simp only [h.ent, h.version, ne_eq, not_true_eq_false, or_false]
    exact Nat.not_lt.mpr h.hdr
  rw [aclValidate, if_neg hok]
  obtain ⟨e, es, heq, ⟨htag, hperm⟩, hes⟩ := of_views h.entries
  rw [heq]
  simp only [aclValidateLoop, htag, hperm]
  refine validate_userRow hes ⟨acl.users_sorted, by simp⟩ ⟨acl.groups_sorted, by simp⟩ rfl fun hn => ?_
  exact acl.mask_of_named (by simpa using hn)

/-- **`acl_validate` accepts the values that read as an ACL**, with the ACL's summary. -/
theorem aclValidate_iff {s : AclSummary} :
    aclValidate v = .ok s ↔ ∃ acl, Reads v acl ∧ s = summary acl := by
  constructor
  · intro h
    unfold aclValidate at h
    split at h
    · contradiction
    next hok =>
    simp only [not_or, Nat.not_lt, not_not] at hok
    obtain ⟨acl, hes, hs⟩ := of_validate_start h
    exact ⟨acl, ⟨hok.1, hok.2.1, hok.2.2, hes⟩, hs⟩
  · rintro ⟨acl, hr, rfl⟩
    exact hr.aclValidate_eq

/-! ### Overwriting the permissions of entries -/

section SetPerm

variable {v : List Byte} {i : Nat} {p : Perm}

section

variable (hi : i < aclEntryCount v)
include hi

theorem room_setPerm : aclHdr + i * aclEnt + 2 + 2 ≤ v.length := by
  unfold aclEntryCount aclHdr aclEnt at *
  omega

theorem length_setPerm : (setPerm v i p).length = v.length :=
  length_splice (room_setPerm hi)

theorem le16_setPerm_of_disjoint {o : Nat}
    (ho : o + 2 ≤ aclHdr + i * aclEnt + 2 ∨ aclHdr + i * aclEnt + 2 + 2 ≤ o) :
    le16 (setPerm v i p) o = le16 v o :=
  le16_splice_of_disjoint (room_setPerm hi) ho

theorem le32_setPerm_of_disjoint {o : Nat}
    (ho : o + 4 ≤ aclHdr + i * aclEnt + 2 ∨ aclHdr + i * aclEnt + 2 + 2 ≤ o) :
    le32 (setPerm v i p) o = le32 v o := by
  rw [le32, le16_setPerm_of_disjoint hi (by omega), le16_setPerm_of_disjoint hi (by omega)]
  rfl

theorem aclEntry_setPerm (j : Nat) :
    aclEntry (setPerm v i p) j = if j = i then { aclEntry v i with perm := p } else aclEntry v j := by
  unfold aclEntry
  dsimp only
  split
  · next hji =>
    subst hji
    have hself : le16 (setPerm v j p) (aclHdr + j * aclEnt + 2) = p.setWidth 16 :=
      le16_splice_self (room_setPerm hi)
    rw [le16_setPerm_of_disjoint hi (by omega), hself, le32_setPerm_of_disjoint hi (by omega),
      BitVec.setWidth_setWidth_of_le p (by decide), BitVec.setWidth_eq]
  · next hji =>
    rw [le16_setPerm_of_disjoint hi (by unfold aclEnt; omega),
      le16_setPerm_of_disjoint hi (by unfold aclEnt; omega),
      le32_setPerm_of_disjoint hi (by unfold aclEnt; omega)]

end

@[simp] theorem length_aclEntries (v : List Byte) : (aclEntries v).length = aclEntryCount v := by
  simp [aclEntries]

/-- In terms of the entries: the one at `i` gets the permissions. -/
theorem aclEntries_setPerm (hi : i < aclEntryCount v) :
    aclEntries (setPerm v i p) = (aclEntries v).modify i fun e => { e with perm := p } := by
  refine List.ext_getElem (by simp [aclEntryCount, length_setPerm hi]) fun j hj hj' => ?_
  simp only [aclEntries, List.getElem_map,
    aclEntry_setPerm hi]
  by_cases hji : j = i
  · subst hji
    simp
  · simp [hji, Ne.symm hji]

/-- A value with other permissions in its entries. -/
structure SameFrame (v w : List Byte) : Prop where
  length_eq : w.length = v.length
  version : le32 w 0 = le32 v 0

variable {w : List Byte}

theorem SameFrame.setPerm (h : SameFrame v w) (hi : i < aclEntryCount w) :
    SameFrame v (setPerm w i p) := by
  refine ⟨(length_setPerm hi).trans h.length_eq, ?_⟩
  rw [le32_setPerm_of_disjoint hi (by unfold aclHdr; omega), h.version]

theorem SameFrame.trans {x : List Byte} (h : SameFrame v w) (h' : SameFrame w x) : SameFrame v x :=
  ⟨h'.length_eq.trans h.length_eq, h'.version.trans h.version⟩

theorem SameFrame.aclEntryCount_eq (h : SameFrame v w) : aclEntryCount w = aclEntryCount v := by
  rw [aclEntryCount, h.length_eq, aclEntryCount]

/-- The value reads as another ACL of as many entries. -/
theorem Reads.of_sameFrame {acl acl' : Acl Id} (h : Reads v acl) (hw : SameFrame v w)
    (hes : (aclEntries w).map AclEntry.view = acl'.entries.map some) : Reads w acl' :=
  ⟨hw.length_eq ▸ h.hdr, hw.length_eq ▸ h.ent, hw.version.trans h.version, hes⟩

end SetPerm

/-! ### chmod rewrites the classes -/

section Chmod

/-- What `chmod` does to an entry. -/
def AclEntry.chmod (hasMask : Bool) (mode : BitVec 16) (e : AclEntry) : AclEntry :=
  match chmodPerm hasMask mode e.tag with
  | some p => { e with perm := p }
  | none => e

/-- One pass of the loop. -/
def chmodStep (hasMask : Bool) (mode : BitVec 16) (v : List Byte) (i : Nat) : List Byte :=
  match chmodPerm hasMask mode (aclEntry v i).tag with
  | some p => setPerm v i p
  | none => v

variable {v : List Byte} {acl : Acl Id}

theorem chmodStep_spec (hasMask : Bool) (mode : BitVec 16) {w : List Byte} {i : Nat}
    (h : SameFrame v w) (hi : i < aclEntryCount v) :
    SameFrame v (chmodStep hasMask mode w i) ∧ ∀ j, aclEntry (chmodStep hasMask mode w i) j =
      if j = i then (aclEntry w i).chmod hasMask mode else aclEntry w j := by
  rw [← h.aclEntryCount_eq] at hi
  unfold chmodStep AclEntry.chmod
  split
  · exact ⟨h.setPerm hi, aclEntry_setPerm hi⟩
  refine ⟨h, fun j => ?_⟩
  split
  · next hji => rw [hji]
  · rfl

/-- The loop, after `k` passes. -/
theorem foldl_chmodStep (hasMask : Bool) (mode : BitVec 16) (v : List Byte) {k : Nat}
    (hk : k ≤ aclEntryCount v) : SameFrame v ((range k).foldl (chmodStep hasMask mode) v) ∧
      ∀ j, aclEntry ((range k).foldl (chmodStep hasMask mode) v) j =
        if j < k then (aclEntry v j).chmod hasMask mode else aclEntry v j := by
  induction k with
  | zero => exact ⟨⟨rfl, rfl⟩, fun j => by simp⟩
  | succ k ih =>
    obtain ⟨hframe, hes⟩ := ih (by omega)
    rw [List.range_succ, foldl_append, foldl_cons, List.foldl_nil]
    obtain ⟨hframe', hes'⟩ := chmodStep_spec hasMask mode hframe (Nat.lt_of_succ_le hk)
    refine ⟨hframe', fun j => ?_⟩
    rw [hes', hes k, hes j, if_neg (Nat.lt_irrefl k)]
    by_cases hj : j = k
    · rw [if_pos hj, if_pos (by omega), hj]
    · rw [if_neg hj]
      exact if_congr (by omega) rfl rfl

/-- The entries after `acl_chmod_rewrite`. -/
theorem aclChmodRewrite_spec (v : List Byte) (mode : BitVec 16) :
    SameFrame v (aclChmodRewrite v mode) ∧ aclEntries (aclChmodRewrite v mode) =
      (aclEntries v).map (.chmod ((aclEntries v).any (·.tag = .mask)) mode) := by
  have hmask : ((range (aclEntryCount v)).any fun i => (aclEntry v i).tag = .mask) =
      (aclEntries v).any (·.tag = .mask) := by
    rw [aclEntries, List.any_map]
    rfl
  have hloop : aclChmodRewrite v mode = (range (aclEntryCount v)).foldl
      (chmodStep ((aclEntries v).any (·.tag = .mask)) mode) v := by
    rw [aclChmodRewrite, hmask]
    rfl
  obtain ⟨hframe, hes⟩ :=
    foldl_chmodStep ((aclEntries v).any (·.tag = .mask)) mode v (Nat.le_refl (aclEntryCount v))
  rw [hloop]
  refine ⟨hframe, ?_⟩
  rw [aclEntries, hframe.aclEntryCount_eq]
  rw [aclEntries, map_map]
  exact List.map_congr_left fun j hj => (hes j).trans (if_pos (List.mem_range.mp hj))

theorem view_chmod (hasMask : Bool) (mode : BitVec 16) (e : AclEntry) :
    (e.chmod hasMask mode).view =
      e.view.map (.withClasses hasMask (ownerBits mode) (groupBits mode) (otherBits mode)) := by
  obtain ⟨tag, p, id⟩ := e
  cases tag <;> cases hasMask <;> rfl

/-- The mask among the entries. -/
def maskOf : Option (AclEnt Id) → Option Perm
  | some (.mask p) => some p
  | _ => none

theorem find?_mask (es : List AclEntry) :
    (es.find? (·.tag = .mask)).map (·.perm) = (es.map AclEntry.view).findSome? maskOf := by
  induction es with
  | nil => rfl
  | cons e es ih =>
    obtain ⟨tag, p, id⟩ := e
    cases tag with
    | mask => rfl
    | userObj | user | groupObj | group | other | unknown => exact ih

theorem findSome?_maskOf (acl : Acl Id) : (acl.entries.map some).findSome? maskOf = acl.mask := by
  have husers : (acl.users.map fun e => (.user e.1 e.2 : AclEnt Id)).findSome? (maskOf ∘ some) = none := by
    rw [List.findSome?_eq_none_iff]
    intro x hx
    obtain ⟨e, -, rfl⟩ := mem_map.mp hx
    rfl
  have hgroups : (acl.groups.map fun e => (.group e.1 e.2 : AclEnt Id)).findSome? (maskOf ∘ some) = none := by
    rw [List.findSome?_eq_none_iff]
    intro x hx
    obtain ⟨e, -, rfl⟩ := mem_map.mp hx
    rfl
  rw [List.findSome?_map]
  cases hm : acl.mask <;>
    simp [Acl.entries, List.findSome?_append, List.findSome?_cons, husers, hgroups, maskOf, hm]

theorem Reads.find?_mask (h : Reads v acl) :
    ((aclEntries v).find? (·.tag = .mask)).map (·.perm) = acl.mask := by
  rw [Xattr.find?_mask, h.entries, findSome?_maskOf]

theorem Reads.any_mask (h : Reads v acl) :
    (aclEntries v).any (·.tag = .mask) = acl.mask.isSome := by
  rw [← h.find?_mask, Option.isSome_map, List.isSome_find?]

/-- **`acl_chmod_rewrite` gives the ACL the classes of the mode.** -/
theorem Reads.aclChmodRewrite (h : Reads v acl) (mode : BitVec 16) : Reads (aclChmodRewrite v mode)
      (acl.withClasses (ownerBits mode) (groupBits mode) (otherBits mode)) := by
  obtain ⟨hframe, hes⟩ := aclChmodRewrite_spec v mode
  refine h.of_sameFrame hframe ?_
  have hview : AclEntry.view ∘ .chmod acl.mask.isSome mode =
      Option.map (.withClasses acl.mask.isSome (ownerBits mode) (groupBits mode) (otherBits mode)) ∘
        AclEntry.view := funext (view_chmod _ mode)
  rw [hes, h.any_mask, map_map, hview, ← map_map, h.entries, Acl.entries_withClasses,
    map_map, map_map]
  rfl

end Chmod

/-! ### The access check is that of the ACL -/

section Walk

variable {es : List AclEntry} {m : FileMeta} {cred : Cred} {want : Perm} {mask : Option Perm}

/-- The walk over the named groups, the mask and the others. -/
theorem walk_groupRow {gs : List (Id × Perm)} {mk : Option Perm} {o : Perm} (found : Bool)
    (hes : es.map AclEntry.view = (groupRow gs mk o).map some) :
    aclWalkLoop m cred want mask es found =
      ((gs.filter (cred.inGroup ·.1)).any (fun e => (e.2 &&& mask.getD 7).covers want) ||
        (!(found || gs.any (cred.inGroup ·.1)) && o.covers want)) := by
  induction gs generalizing es found with
  | nil =>
    -- what is left is the entry for others, perhaps behind a mask, which the walk skips
    have hother {es : List AclEntry} (hes : es.map AclEntry.view = [some (.other o)]) :
        aclWalkLoop m cred want mask es found = (!found && o.covers want) := by
      obtain ⟨e, es, rfl, ⟨htag, hperm⟩, -⟩ := of_views hes
      cases found <;> simp [aclWalkLoop, htag, hperm]
    cases mk with
    | none => simpa using hother hes
    | some =>
      obtain ⟨e, es, rfl, ⟨htag, hperm⟩, hes⟩ := of_views hes
      simp only [aclWalkLoop, htag]
      simpa using hother hes
  | cons g gs ih =>
    obtain ⟨e, es, rfl, ⟨htag, hperm, hid⟩, hes⟩ := of_views hes
    simp only [aclWalkLoop, htag, hperm, hid]
    -- a group of the caller that does not grant still keeps others from being asked
    cases hin : cred.inGroup g.1 with
    | true => simp [ih true hes, hin]
    | false => simp [ih found hes, hin]

/-- The walk behind the owner. -/
theorem walk_userRow {us gs : List (Id × Perm)} {mk : Option Perm} {g o : Perm}
    (hes : es.map AclEntry.view = (userRow us g (groupRow gs mk o)).map some) :
    aclWalkLoop m cred want mask es false = match us.find? (·.1 = cred.euid) with
      | some e => (e.2 &&& mask.getD 7).covers want
      | none => (((m.gid, g) :: gs).filter (cred.inGroup ·.1)).any
            (fun e => (e.2 &&& mask.getD 7).covers want) ||
          (!((m.gid, g) :: gs).any (cred.inGroup ·.1) && o.covers want) := by
  induction us generalizing es with
  | nil =>
    obtain ⟨e, es, rfl, ⟨htag, hperm⟩, hes⟩ := of_views hes
    simp only [aclWalkLoop, htag, hperm]
    cases hin : cred.inGroup m.gid with
    | true => simp [walk_groupRow true hes, hin]
    | false => simp [walk_groupRow false hes, hin]
  | cons u us ih =>
    obtain ⟨e, es, rfl, ⟨htag, hperm, hid⟩, hes⟩ := of_views hes
    simp only [aclWalkLoop, htag, hperm, hid]
    by_cases hu : cred.euid = u.1
    · simp [hu]
    · rw [if_neg hu, ih hes, List.find?_cons_of_neg (by simpa [eq_comm] using hu)]

end Walk

/-- **The walk is the access check of the ACL.** -/
theorem Reads.aclWalk_eq (h : Reads v acl) (m : FileMeta) (cred : Cred) (want : Perm) :
    aclWalk v m cred want = acl.permits m.uid m.gid cred.euid cred.inGroup want := by
  unfold aclWalk
  rw [h.find?_mask]
  obtain ⟨e, es, heq, ⟨htag, hperm⟩, hes⟩ := of_views h.entries
  rw [heq]
  unfold Acl.permits
  simp only [aclWalkLoop, htag, hperm]
  split
  · rfl
  rw [walk_userRow hes]
  cases acl.users.find? (·.1 = cred.euid) with
  | some => rfl
  | none =>
    dsimp only
    unfold Acl.groupsOf
    -- no group has the caller just in case the list of those that do is empty
    split
    · next hnil =>
      have hany : ((m.gid, acl.groupObj) :: acl.groups).any (cred.inGroup ·.1) = false := by
        simpa [List.filter_eq_nil_iff] using hnil
      rw [hnil, hany]
      rfl
    · next hne =>
      have hany : ((m.gid, acl.groupObj) :: acl.groups).any (cred.inGroup ·.1) = true := by
        obtain ⟨e, he⟩ := List.exists_mem_of_ne_nil _ hne
        obtain ⟨hmem, hin⟩ := List.mem_filter.mp he
        exact List.any_eq_true.mpr ⟨e, hmem, hin⟩
      rw [hany, Bool.not_true, Bool.false_and, Bool.or_false]
      rfl

/-- The ACL a file is judged by: the one that is stored, or else its mode. -/
def HasAcl (mode : BitVec 16) (stored : Option (List Byte)) (acl : Acl Id) : Prop :=
  match stored with
  | some v => Reads v acl
  | none => acl = .ofClasses (ownerBits mode) (groupBits mode) (otherBits mode)

/-- **`access_check`** of a caller other than root. -/
theorem HasAcl.accessCheck_eq {m : FileMeta} {stored : Option (List Byte)}
    (h : HasAcl m.mode stored acl) {cred : Cred} (hroot : cred.euid ≠ 0) (r w x : Bool) :
    accessCheck m cred stored r w x = acl.permits m.uid m.gid cred.euid cred.inGroup
      (ofBool r ++ ofBool w ++ ofBool x) := by
  unfold accessCheck
  rw [if_neg hroot]
  cases stored with
  | none =>
    obtain rfl : acl = _ := h
    rw [Acl.permits_ofClasses]
    rfl
  | some v =>
    have hr : Reads v acl := h
    have hok : (some v).filter (fun v => (aclValidate v).isOk) = some v := by
      rw [Option.filter_some, hr.aclValidate_eq]
      rfl
    rw [hok]
    exact hr.aclWalk_eq m cred _

/-! ### Creation under a default ACL -/

section Create

variable {v : List Byte} {acl : Acl Id}

/-- The entries of a value that reads as an ACL, run by run. -/
theorem Reads.split (h : Reads v acl) :
    ∃ (e : AclEntry) (us : List AclEntry) (g : AclEntry) (gs ms : List AclEntry) (o : AclEntry),
      aclEntries v = e :: (us ++ g :: (gs ++ ms ++ [o])) ∧ e.view = some (.userObj acl.userObj) ∧
      us.map AclEntry.view = acl.users.map (fun u => some (.user u.1 u.2)) ∧
      g.view = some (.groupObj acl.groupObj) ∧
      gs.map AclEntry.view = acl.groups.map (fun u => some (.group u.1 u.2)) ∧
      ms.map AclEntry.view = (acl.mask.map fun p => some (.mask p)).toList ∧
      o.view = some (.other acl.other) := by
  have hes := h.entries
  -- the row is cut in the order of its parts
  obtain ⟨e, es, heq, he, hes⟩ := map_eq_cons_iff.mp hes
  rw [map_append] at hes
  obtain ⟨us, es, rfl, hus, hes⟩ := List.map_eq_append_iff.mp hes
  obtain ⟨g, es, rfl, hg, hes⟩ := map_eq_cons_iff.mp hes
  rw [map_append, map_append] at hes
  obtain ⟨es, os, rfl, hes, hos⟩ := List.map_eq_append_iff.mp hes
  obtain ⟨gs, ms, rfl, hgs, hms⟩ := List.map_eq_append_iff.mp hes
  obtain ⟨o, rfl, ho⟩ := List.map_eq_singleton_iff.mp hos
  refine ⟨e, us, g, gs, ms, o, heq, he, ?_, hg, ?_, ?_, ho⟩
  · rw [hus, map_map]
    rfl
  · rw [hgs, map_map]
    rfl
  · rw [hms]
    cases acl.mask <;> rfl

/-- The loop over named entries. -/
theorem foldl_masqStep_named {es : List AclEntry} (hes : ∀ e ∈ es, e.tag = .user ∨ e.tag = .group)
    (m : Masq) (k : Nat) : (es.zipIdx k).foldl (fun m e => masqStep m e.1 e.2) m =
      { m with notEquiv := m.notEquiv || !es.isEmpty } := by
  induction es generalizing m k with
  | nil => simp
  | cons e es ih =>
    rw [zipIdx_cons, foldl_cons, ih fun x hx => hes x (.tail _ hx)]
    rcases hes e List.mem_cons_self with he | he <;> simp [masqStep, he]

theorem modify_mid {α : Type} (pre post : List α) (x : α) (f : α → α) :
    (pre ++ x :: post).modify pre.length f = pre ++ f x :: post := by
  induction pre with
  | nil => rfl
  | cons a pre ih => simp [ih]

variable {us : List AclEntry}

theorem tag_of_named {named : List (Id × Perm)} {f : Id × Perm → AclEnt Id}
    (h : us.map AclEntry.view = named.map fun u => some (f u))
    (hf : ∀ (e : AclEntry) u, e.view = some (f u) → e.tag = .user ∨ e.tag = .group) :
    ∀ e ∈ us, e.tag = .user ∨ e.tag = .group := by
  intro e he
  have hmem : e.view ∈ named.map fun u => some (f u) := h ▸ List.mem_map_of_mem he
  obtain ⟨u, -, hu⟩ := mem_map.mp hmem
  exact hf e u hu.symm

/-- What the loop leaves, for entries given run by run. -/
theorem masq_of_split {e : AclEntry} {g : AclEntry} {gs ms : List AclEntry}
    {o : AclEntry} (heq : aclEntries v = e :: (us ++ g :: (gs ++ ms ++ [o]))) (mode : BitVec 16)
    (he : e.tag = .userObj) (hus : ∀ e ∈ us, e.tag = .user ∨ e.tag = .group) (hg : g.tag = .groupObj)
    (hgs : ∀ e ∈ gs, e.tag = .user ∨ e.tag = .group)
    (hms : ms = [] ∨ ∃ x, ms = [x] ∧ x.tag = .mask) (ho : o.tag = .other) : masq v mode =
      { clone := setPerm (setPerm v 0 (e.perm &&& ownerBits mode))
          (e :: (us ++ g :: (gs ++ ms))).length (o.perm &&& otherBits mode)
        userPerm := e.perm &&& ownerBits mode
        otherPerm := o.perm &&& otherBits mode
        notEquiv := !us.isEmpty || !gs.isEmpty
        maskIdx := if ms = [] then none else some (e :: (us ++ g :: gs)).length
        groupObjIdx := some (e :: us).length } := by
  rw [masq, heq, zipIdx_cons, foldl_cons, zipIdx_append, foldl_append,
    foldl_masqStep_named hus, zipIdx_cons, foldl_cons, zipIdx_append, foldl_append,
    zipIdx_append, foldl_append, foldl_masqStep_named hgs]
  rcases hms with rfl | ⟨x, rfl, hx⟩
  · simp [masqStep, he, hg, ho, Nat.add_comm, Nat.add_left_comm]
  · simp [masqStep, he, hg, ho, hx, Nat.add_comm, Nat.add_left_comm]

/-- An entry at a known place. -/
theorem aclEntry_mid {pre post : List AclEntry} {x : AclEntry} (h : aclEntries v = pre ++ x :: post) :
    pre.length < aclEntryCount v ∧ aclEntry v pre.length = x := by
  have hlen : pre.length < aclEntryCount v := by
    rw [← length_aclEntries, h]
    simp
  refine ⟨hlen, ?_⟩
  have hget : (aclEntries v)[pre.length]? = some (aclEntry v pre.length) := by
    simp [aclEntries, hlen]
  rw [h] at hget
  simpa using hget.symm

/-- The permissions of an entry at a known place are overwritten. -/
theorem aclEntries_setPerm_mid (pre : List AclEntry) {post : List AclEntry} {x : AclEntry}
    (h : aclEntries v = pre ++ x :: post) (p : Perm) : SameFrame v (setPerm v pre.length p) ∧
      aclEntries (setPerm v pre.length p) = pre ++ { x with perm := p } :: post := by
  have hlen := (aclEntry_mid h).1
  refine ⟨SameFrame.setPerm ⟨rfl, rfl⟩ hlen, ?_⟩
  rw [aclEntries_setPerm hlen, h, modify_mid]

/-- The copy after the loop, for entries given run by run. -/
theorem clone_of_split {e : AclEntry} {g : AclEntry} {gs ms : List AclEntry}
    {o : AclEntry} (heq : aclEntries v = e :: (us ++ g :: (gs ++ ms ++ [o]))) (pu po : Perm) :
    SameFrame v (setPerm (setPerm v 0 pu) (e :: (us ++ g :: (gs ++ ms))).length po) ∧
      aclEntries (setPerm (setPerm v 0 pu) (e :: (us ++ g :: (gs ++ ms))).length po) =
        { e with perm := pu } :: (us ++ g :: (gs ++ ms ++ [{ o with perm := po }])) := by
  obtain ⟨hframe, hes⟩ := aclEntries_setPerm_mid [] heq pu
  have hlast : aclEntries (setPerm v 0 pu) =
      ({ e with perm := pu } :: (us ++ g :: (gs ++ ms))) ++ o :: [] := by
    rw [← List.length_nil, hes]
    simp
  obtain ⟨hframe', hes'⟩ := aclEntries_setPerm_mid _ hlast po
  refine ⟨hframe.trans hframe', ?_⟩
  rw [List.length_cons] at hes' ⊢
  rw [hes']
  simp

/-- What the creation under a default ACL does with it, apart from the mode. -/
structure Inherits (v : List Byte) (acl : Acl Id) (mode : BitVec 16) (gi : Nat) : Prop where
  idx : ((masq v mode).maskIdx <|> (masq v mode).groupObjIdx) = some gi
  mask : (masq v mode).maskIdx.isSome = acl.mask.isSome
  named : (masq v mode).notEquiv = (!acl.users.isEmpty || !acl.groups.isEmpty)
  owner : (masq v mode).userPerm = acl.userObj &&& ownerBits mode
  other : (masq v mode).otherPerm = acl.other &&& otherBits mode
  group : (aclEntry v gi).perm = acl.groupClass
  reads : Reads (setPerm (masq v mode).clone gi (acl.groupClass &&& groupBits mode))
    (acl.restrict (ownerBits mode) (groupBits mode) (otherBits mode))
  length_eq : (setPerm (masq v mode).clone gi (acl.groupClass &&& groupBits mode)).length = v.length

/-- The walk over a default ACL finds the entries that the mode masks. -/
theorem Reads.inherits (h : Reads v acl) (mode : BitVec 16) : ∃ gi, Inherits v acl mode gi := by
  obtain ⟨e, us, g, gs, ms, o, heq, he, hus, hg, hgs, hms, ho⟩ := h.split
  obtain ⟨hetag, heperm⟩ := of_view he
  obtain ⟨hgtag, hgperm⟩ := of_view hg
  obtain ⟨hotag, hoperm⟩ := of_view ho
  have husers := tag_of_named hus fun _ _ he => .inl (of_view he).1
  have hgroups := tag_of_named hgs fun _ _ he => .inr (of_view he).1
  have husnil : us.isEmpty = acl.users.isEmpty := by simpa using congrArg isEmpty hus
  have hgsnil : gs.isEmpty = acl.groups.isEmpty := by simpa using congrArg isEmpty hgs
  obtain ⟨hframe, hes⟩ := clone_of_split heq (e.perm &&& ownerBits mode) (o.perm &&& otherBits mode)
  cases hm : acl.mask with
  | none =>
    -- the owning group takes the group bits
    obtain rfl : ms = [] := by simpa [hm] using hms
    have hloop := masq_of_split heq mode hetag husers hgtag hgroups
      (.inl rfl) hotag
    have hclass : acl.groupClass = g.perm := by rw [Acl.groupClass, hm, hgperm]; rfl
    have hmid : aclEntries v = (e :: us) ++ g :: (gs ++ [o]) := by rw [heq]; simp
    obtain ⟨hframe', hes'⟩ := aclEntries_setPerm_mid
      ({ e with perm := e.perm &&& ownerBits mode } :: us) (hes.trans (List.cons_append ..).symm)
      (g.perm &&& groupBits mode)
    refine ⟨(e :: us).length, by rw [hloop]; rfl, by rw [hloop, hm]; rfl, by rw [hloop, husnil, hgsnil],
      by rw [hloop, heperm], by rw [hloop, hoperm], by rw [(aclEntry_mid hmid).2, hclass], ?_, ?_⟩
    · rw [hloop, hclass]
      refine h.of_sameFrame (hframe.trans hframe') (hes' ▸ ?_)
      simp [hetag, hgtag, hotag, hus, hgs, heperm, hoperm, hclass, hm, Acl.entries, Acl.restrict,
        Acl.withClasses]
      exact ⟨rfl, rfl⟩
    · rw [hloop, hclass]
      exact (hframe.trans hframe').length_eq
  | some =>
    -- the mask takes them
    rw [hm] at hms
    obtain ⟨x, rfl, hx⟩ := List.map_eq_singleton_iff.mp hms
    obtain ⟨hxtag, hxperm⟩ := of_view hx
    have hloop := masq_of_split heq mode hetag husers hgtag hgroups
      (.inr ⟨x, rfl, hxtag⟩) hotag
    have hclass : acl.groupClass = x.perm := by rw [Acl.groupClass, hm, hxperm]; rfl
    have hmid : aclEntries v = (e :: (us ++ g :: gs)) ++ x :: [o] := by rw [heq]; simp
    have hmid' : _ = ({ e with perm := e.perm &&& ownerBits mode } :: (us ++ g :: gs)) ++
        x :: [{ o with perm := o.perm &&& otherBits mode }] := hes.trans (by simp)
    obtain ⟨hframe', hes'⟩ := aclEntries_setPerm_mid _ hmid' (x.perm &&& groupBits mode)
    refine ⟨(e :: (us ++ g :: gs)).length, by rw [hloop]; rfl, by rw [hloop, hm]; rfl,
      by rw [hloop, husnil, hgsnil], by rw [hloop, heperm], by rw [hloop, hoperm],
      by rw [(aclEntry_mid hmid).2, hclass], ?_, ?_⟩
    · rw [hloop, hclass]
      refine h.of_sameFrame (hframe.trans hframe') (hes' ▸ ?_)
      simp [hetag, hg, hotag, hxtag, hus, hgs, heperm, hoperm, hclass, hm, Acl.entries, Acl.restrict,
        Acl.withClasses]
      exact ⟨rfl, rfl⟩
    · rw [hloop, hclass]
      exact (hframe.trans hframe').length_eq

end Create

/-! ### Mode bits -/

/-- The class permissions in a mode. -/
def classes {w : Nat} (mode : BitVec w) : Perm × Perm × Perm :=
  (ownerBits mode, groupBits mode, otherBits mode)

/-- The classes of an ACL: its owner, its mask or else its owning group, the others. -/
def aclClasses (acl : Acl Id) : Perm × Perm × Perm := (acl.userObj, acl.groupClass, acl.other)

/-- The classes are the low nine bits. -/
theorem classes_congr {k : Nat} {a : BitVec w} {b : BitVec k}
    (h : ∀ i < 9, a.getLsbD i = b.getLsbD i) : classes a = classes b := by
  have hbits (s : Nat) (hs : s ≤ 6) : (a >>> s).setWidth 3 = (b >>> s).setWidth 3 := by
    apply BitVec.eq_of_getLsbD_eq
    intro i hi
    simp [h (s + i) (by omega)]
  have h0 := hbits 0 (by omega)
  simp only [BitVec.ushiftRight_zero] at h0
  rw [classes, classes, ownerBits, ownerBits, groupBits, groupBits, otherBits, otherBits,
    hbits 6 (by omega), hbits 3 (by omega), h0]

/-- A mode of another width. -/
theorem classes_setWidth (hw : 9 ≤ w) {k : Nat} (a : BitVec k) :
    classes (a.setWidth w) = classes a :=
  classes_congr fun i hi => by simp [show i < w by omega]

theorem classes_or (a b : BitVec w) :
    classes (a ||| b) = (ownerBits a ||| ownerBits b, groupBits a ||| groupBits b,
      otherBits a ||| otherBits b) := by
  simp [classes, ownerBits, groupBits, otherBits, BitVec.ushiftRight_or_distrib, BitVec.setWidth_or]

theorem classes_and (a b : BitVec w) :
    classes (a &&& b) = (ownerBits a &&& ownerBits b, groupBits a &&& groupBits b,
      otherBits a &&& otherBits b) := by
  simp [classes, ownerBits, groupBits, otherBits, BitVec.ushiftRight_and_distrib, BitVec.setWidth_and]

/-- Bits above the classes change nothing. -/
theorem classes_and_or {k : BitVec w} (hk : classes k = 0) (a b : BitVec w) :
    classes ((a &&& k) ||| b) = classes b := by
  have hand := classes_and a k
  simp only [classes, Prod.mk.injEq, Prod.mk_eq_zero] at hk hand
  rw [classes_or, hand.1, hand.2.1, hand.2.2, hk.1, hk.2.1, hk.2.2]
  simp [classes]

theorem classes_or_of_zero {k : BitVec w} (hk : classes k = 0) (b : BitVec w) :
    classes (k ||| b) = classes b := by
  simp only [classes, Prod.mk_eq_zero] at hk
  rw [classes_or, hk.1, hk.2.1, hk.2.2]
  simp [classes]

/-- A mask that keeps the classes. -/
theorem classes_and_of_all {k : BitVec w} (hk : classes k = (7, 7, 7)) (a : BitVec w) :
    classes (a &&& k) = classes a := by
  simp only [classes, Prod.mk.injEq] at hk
  rw [classes_and, hk.1, hk.2.1, hk.2.2]
  simp [classes]

/-- The three classes side by side, as `acl_mode_bits` and `acl_create` put them. -/
theorem classes_bits (u g o : Perm) :
    classes ((u.setWidth 16 <<< 6) ||| (g.setWidth 16 <<< 3) ||| o.setWidth 16 : BitVec 16) = (u, g, o) := by
  revert u g o
  decide +kernel

theorem classes_aclModeBits (acl : Acl Id) : classes (aclModeBits (summary acl)) = aclClasses acl :=
  classes_bits ..

theorem aclClasses_withClasses (acl : Acl Id) (u g o : Perm) :
    aclClasses (acl.withClasses u g o) = (u, g, o) := by
  rw [aclClasses, Acl.groupClass_withClasses]
  rfl

/-- The summary of an ACL tells whether it is more than a mode. -/
theorem aclIsTrivial_summary : aclIsTrivial (summary acl) = true ↔ acl.IsTrivial := by
  simp [aclIsTrivial, summary, Acl.IsTrivial, and_assoc]

/-- **`acl_create` under a default ACL**: the mode has the classes of the ACL cut down to the mode that
was asked for, whatever the umask, and unless the ACL is no more than a mode it is stored, so cut
down. -/
theorem Reads.aclCreate (h : Reads v acl)
    (hlen : v.length ≤ aclInheritMax) (mode umask : BitVec 16) (isDir : Bool) :
    (aclCreate (some v) mode umask isDir).inheritDefault = isDir ∧
      classes (aclCreate (some v) mode umask isDir).mode =
        aclClasses (acl.restrict (ownerBits mode) (groupBits mode) (otherBits mode)) ∧
      (acl.IsTrivial → (aclCreate (some v) mode umask isDir).access = []) ∧
      (¬ acl.IsTrivial → Reads (aclCreate (some v) mode umask isDir).access
          (acl.restrict (ownerBits mode) (groupBits mode) (otherBits mode)) ∧
        (aclCreate (some v) mode umask isDir).access.length = v.length) := by
  obtain ⟨gi, hin⟩ := h.inherits mode
  -- an ACL that reads as one is valid, so it is not filtered out
  have hfilter : (some v).filter (fun v => v.length ≤ aclInheritMax ∧ (aclValidate v).isOk) = some v := by
    rw [Option.filter_some, h.aclValidate_eq]
    simp [hlen, Except.isOk, Except.toBool]
  -- the walk found a name or a mask exactly if the ACL says more than a mode
  have hstored : ((masq v mode).notEquiv || (masq v mode).maskIdx.isSome) = true ↔ ¬ acl.IsTrivial := by
    rw [hin.named, hin.mask, ← aclIsTrivial_summary]
    simp only [aclIsTrivial, summary]
    cases acl.users.isEmpty <;> cases acl.groups.isEmpty <;> cases acl.mask <;> simp
  unfold Xattr.aclCreate
  rw [hfilter]
  dsimp only
  rw [hin.idx]
  dsimp only
  rw [hin.group, hin.owner, hin.other]
  refine ⟨rfl, ?_, fun ht => ?_, fun ht => ?_⟩
  · rw [BitVec.or_assoc, BitVec.or_assoc, classes_and_or (by decide +kernel), ← BitVec.or_assoc, classes_bits,
      Acl.restrict, aclClasses_withClasses]
  · exact if_neg (fun hs => hstored.mp hs ht)
  · rw [if_pos (hstored.mpr ht)]
    exact ⟨hin.reads, hin.length_eq⟩

end Leandros.Xattr
