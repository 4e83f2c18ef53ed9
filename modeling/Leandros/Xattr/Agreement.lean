import Leandros.Xattr.Inodes

/-!
# Leandros.Xattr.Agreement

**Mode bits and ACLs agree.** In every run whose steps meet `State.Apt`, the access ACL that an inode
stores is well formed and its class permissions are the bits of the mode, so that `chmod` bounds what
anyone but root is granted, and what is created under a default ACL inherits it
(`State.modes_and_acls_agree`).

`Apt` leaves out what the code's buffers are too small for: on tmpfs a `chmod` of an inode whose ACL
has more than 31 entries (`chmod_leaves_long_acl`), on both filesystems the creation of an inode
under a default ACL of more than 32; and on F2FS a creation that finds no block for the ACLs.
-/

namespace Leandros.Xattr

open Function (update update_apply update_self)
open Except (isOk ok)
open Option (any_eq_true bind_eq_some_iff bind_none bind_some map_some)

/-! ### What is said of an inode -/

/-- An inode of either filesystem: its mode and owners, its access ACL and its default ACL. -/
structure Node where
  fileMeta : FileMeta
  access : Option (List Byte)
  dflt : Option (List Byte)

open Node

def TmpEntry.node (e : TmpEntry) : Node :=
  ⟨tmpMeta e, e.xattr.find .aclAccess [], e.xattr.find .aclDefault []⟩

def Inode.node (n : Inode) : Node := ⟨n.fileMeta, n.find .aclAccess, n.find .aclDefault⟩

namespace Node

/-- A stored access ACL is well formed, and its permissions for the owner, the group class and the
others are the bits of the mode. -/
def Agrees (n : Node) : Prop :=
  ∀ v, n.access = some v → ∃ s, aclValidate v = .ok s ∧
    (s.userObj, s.mask.getD s.groupObj, s.other) = classes n.fileMeta.mode

/-- An entry of the access ACL names the caller or a group of theirs. -/
def names (n : Node) (cred : Cred) : Bool :=
  (n.access.map aclEntries).any fun es => es.any fun e =>
    (e.tag = .user && e.id == cred.euid) || (e.tag = .group && cred.inGroup e.id)

/-- The bits that a mode has for the caller's class. -/
def callerBits {k : Nat} (n : Node) (cred : Cred) (mode : BitVec k) : Perm :=
  if cred.euid = n.fileMeta.uid then ownerBits mode
  else if n.names cred || cred.inGroup n.fileMeta.gid then groupBits mode
  else otherBits mode

/-- Nobody but root is granted more than the bits of `mode` for their class. -/
def Within {k : Nat} (n : Node) (mode : BitVec k) : Prop :=
  ∀ cred : Cred, cred.euid ≠ 0 → ∀ r w x, accessCheck n.fileMeta cred n.access r w x = true →
    (n.callerBits cred mode).covers (BitVec.ofBool r ++ BitVec.ofBool w ++ BitVec.ofBool x) = true

/-- The inode has the ACL of the value `dacl`, with its class entries cut down to `mode`, and a
directory has `dacl` as its own default ACL. -/
def Inherited (n : Node) (kind : Kind) (dacl : List Byte) (mode : BitVec 16) : Prop :=
  ∀ acl, Reads dacl acl →
    HasAcl n.fileMeta.mode n.access (acl.restrict (ownerBits mode) (groupBits mode) (otherBits mode)) ∧
    (kind = .dir → n.dflt = some dacl)

theorem agrees_iff {n : Node} :
    n.Agrees ↔ ∀ v, n.access = some v → ∃ acl, Reads v acl ∧ aclClasses acl = classes n.fileMeta.mode := by
  refine forall₂_congr fun v _ => ⟨?_, ?_⟩
  · rintro ⟨s, hs, hclasses⟩
    obtain ⟨acl, hr, rfl⟩ := aclValidate_iff.mp hs
    exact ⟨acl, hr, hclasses⟩
  · rintro ⟨acl, hr, hclasses⟩
    exact ⟨summary acl, hr.aclValidate_eq, hclasses⟩

/-- An entry names the caller, in the terms of an ACL. -/
def entNames (cred : Cred) : Option (AclEnt Id) → Bool
  | some (.user id _) => id == cred.euid
  | some (.group id _) => cred.inGroup id
  | _ => false

theorem any_names (cred : Cred) (es : List AclEntry) :
    (es.any fun e => (e.tag = .user && e.id == cred.euid) || (e.tag = .group && cred.inGroup e.id)) =
      (es.map AclEntry.view).any (entNames cred) := by
  rw [List.any_map]
  congr 1
  funext ⟨tag, p, id⟩
  cases tag <;> simp [AclEntry.view, entNames]

theorem any_entNames (cred : Cred) (acl : Acl Id) : (acl.entries.map some).any (entNames cred) =
      (acl.users.any (·.1 = cred.euid) || acl.groups.any (cred.inGroup ·.1)) := by
  cases hm : acl.mask <;> simp [Acl.entries, entNames, List.any_map, Function.comp_def, hm, beq_eq_decide]

variable {n : Node} {acl : Acl Id}

/-- **An ACL that agrees with the mode grants within the mode.** -/
theorem within_of_hasAcl (h : HasAcl n.fileMeta.mode n.access acl) {k : Nat} {mode : BitVec k}
    (hc : aclClasses acl = classes mode) : n.Within mode := by
  intro cred hroot r w x hgrant
  rw [h.accessCheck_eq hroot] at hgrant
  have hle := Acl.permits_le_classPerm hgrant
  -- the caller is named in the entries exactly if the ACL names them
  have hnames : n.names cred = (acl.users.any (·.1 = cred.euid) || acl.groups.any (cred.inGroup ·.1)) := by
    unfold names
    cases ha : n.access with
    | none =>
      obtain rfl : acl = _ := by simpa [ha, HasAcl] using h
      rfl
    | some v =>
      have hr : Reads v acl := by simpa [ha, HasAcl] using h
      rw [map_some, Option.any_some, any_names, hr.entries, any_entNames]
  obtain ⟨howner, hgroup, hother⟩ : acl.userObj = ownerBits mode ∧ acl.groupClass = groupBits mode ∧
      acl.other = otherBits mode := by simpa [aclClasses, classes] using hc
  unfold callerBits
  unfold Acl.classOf at hle
  rw [hnames, ← howner, ← hgroup, ← hother, Bool.or_right_comm]
  -- owner, group class, others: the same three questions on both sides
  split
  · next hu => rwa [if_pos hu] at hle
  · next hu =>
    rw [if_neg hu] at hle
    split
    · next hg => rwa [if_pos hg] at hle
    · next hg => rwa [if_neg hg] at hle

/-- The ACL of an inode that agrees with its mode. -/
theorem Agrees.exists_hasAcl (h : n.Agrees) :
    ∃ acl, HasAcl n.fileMeta.mode n.access acl ∧ aclClasses acl = classes n.fileMeta.mode := by
  cases ha : n.access with
  | none => exact ⟨_, rfl, rfl⟩
  | some v => exact agrees_iff.mp h v ha

/-- The ACL and the mode changed together. -/
theorem agrees_of_reads {v : List Byte} (hv : n.access = some v) (hr : Reads v acl)
    (hc : aclClasses acl = classes n.fileMeta.mode) : n.Agrees :=
  agrees_iff.mpr fun w hw => by
    cases hv.symm.trans hw
    exact ⟨acl, hr, hc⟩

theorem agrees_of_none (h : n.access = none) : n.Agrees := fun v hv => by
  rw [h] at hv
  contradiction

/-- Neither the ACL nor the bits of the mode change. -/
theorem Agrees.congr {n' : Node} (h : n.Agrees) (ha : n'.access = n.access)
    (hc : classes n'.fileMeta.mode = classes n.fileMeta.mode) : n'.Agrees := by
  unfold Agrees
  rw [ha, hc]
  exact h

/-- The ACL goes, or stays as it is. -/
theorem Agrees.drop {n' : Node} {p : Prop} [Decidable p] (h : n.Agrees)
    (ha : n'.access = if p then none else n.access)
    (hc : classes n'.fileMeta.mode = classes n.fileMeta.mode) : n'.Agrees := by
  split at ha
  · exact agrees_of_none ha
  · exact h.congr ha hc

end Node

/-! ### Arenas -/

namespace Arena

variable {cap : Nat} {a : Arena cap} {i j : Index} {val suf : List Byte}

theorem find_put_of_ne (h : j ≠ i) : (a.put i val).find j [] = a.find j [] := by
  unfold put
  split
  · next hset => exact (find_set hset ..).trans (if_neg fun he => h (congrArg Prod.fst he))
  · rfl

theorem find_put_of_ok {b : Arena cap} (h : a.set i [] val 0 = .ok b) :
    (a.put i val).find i [] = some val ∧ (a.put i val).used ≤ a.used + entryLen [] val := by
  rw [put, h]
  exact ⟨(find_set h ..).trans (if_pos rfl), used_set_le h⟩

/-- A value of the length of the one that it replaces. -/
theorem find_put_same_length {v : List Byte} (hfind : a.find i [] = some v)
    (hlen : val.length = v.length) : (a.put i val).find i [] = some val := by
  obtain ⟨b, hb⟩ := set_same_length hfind hlen
  exact (find_put_of_ok hb).1

theorem find_put_of_room (hval : val.length ≤ 65535) (hroom : a.used + entryLen [] val + 4 ≤ cap) :
    (a.put i val).find i [] = some val ∧ (a.put i val).used ≤ a.used + entryLen [] val := by
  obtain ⟨b, hb⟩ : ∃ b, a.set i [] val 0 = .ok b := set_zero_ok (by simp) hval (by omega)
  exact find_put_of_ok hb

theorem find_drop (j : Index) (t : List Byte) :
    (a.drop i suf).find j t = if (j, t) = (i, suf) then none else a.find j t := by
  unfold drop
  split
  · next hrem => exact find_remove hrem j t
  · next hrem =>
    split
    · next he =>
      cases he
      exact find_of_remove_error hrem
    · rfl

end Arena

/-! ### tmpfs -/

/-- The classes of a tmpfs mode: the type is above them. -/
theorem classes_tmpMeta (e : TmpEntry) : classes (tmpMeta e).mode = classes e.mode := by
  have hifmt : classes (tmpIfmt e.kind) = 0 := by cases e.kind <;> decide
  rw [tmpMeta, classes_or_of_zero hifmt, classes_and_of_all (by decide),
    classes_setWidth (by decide)]

theorem classes_withPermBits {w : Nat} (h₀ : classes (~~~0o777#w) = 0)
    (h₁ : classes (0o777#w) = (7, 7, 7)) (mode bits : BitVec w) :
    classes (withPermBits mode bits) = classes bits := by
  rw [withPermBits, classes_and_or h₀, classes_and_of_all h₁]

theorem agrees_tmpChmod {e e' : TmpEntry} {euid : Id} {mode : BitVec 32} (h : e.node.Agrees)
    (hlen : ∀ v, e.xattr.find .aclAccess [] = some v → v.length ≤ 256)
    (hc : tmpChmod e euid mode = .ok e') : e'.node.Agrees ∧ classes e'.mode = classes mode := by
  unfold tmpChmod at hc
  split at hc
  · contradiction
  obtain rfl := ok.inj hc
  have hmode : classes (mode &&& 0o7777) = classes mode := classes_and_of_all (by decide) mode
  unfold tmpAclChmodSync
  split
  · next v hv =>
    rw [if_pos (hlen v hv)]
    obtain ⟨acl, hr, -⟩ := agrees_iff.mp h v hv
    refine ⟨agrees_of_reads (Arena.find_put_same_length hv (aclChmodRewrite_spec v _).1.length_eq)
      (hr.aclChmodRewrite _) ?_, hmode⟩
    rw [TmpEntry.node, classes_tmpMeta, hmode, aclClasses_withClasses]
    exact classes_setWidth (by decide) mode
  · next hnone => exact ⟨agrees_of_none hnone, hmode⟩

variable {cred : Cred} {name : List Byte} {idx : Index} {cap : Nat} {flags : BitVec 32}
  {room : Bool} {c : Created} {kind : Kind}

theorem agrees_applyChown {e e' : TmpEntry} {uid gid : Id} (h : e.node.Agrees)
    (hc : applyChown e cred uid gid = .ok e') : e'.node.Agrees := by
  unfold applyChown at hc
  split at hc
  · obtain rfl := ok.inj hc
    exact h.congr rfl rfl
  · contradiction

/-- A step of a call that goes on. -/
theorem ok_of_bind {α β : Type} {x : Except Nat α} {f : α → Except Nat β} {b : β}
    (h : x >>= f = .ok b) : ∃ a, x = .ok a ∧ f a = .ok b := by
  cases x with
  | error => contradiction
  | ok a => exact ⟨a, rfl, h⟩

variable {suf val : List Byte} {n : Inode}

theorem suffix_of_parseName (h : parseName name = .ok (idx, suf))
    (hi : idx = .aclAccess ∨ idx = .aclDefault) : suf = [] := by
  unfold parseName at h
  split at h
  · contradiction
  split at h
  · next r hr =>
    obtain rfl := ok.inj h
    exact suffix_of_splitName hr hi
  · contradiction

/-- An arena in which an attribute other than the access ACL was set. -/
theorem find_access_set {a b : Arena cap}
    (hidx : idx ≠ .aclAccess) (h : a.set idx suf val flags = .ok b) :
    b.find .aclAccess [] = a.find .aclAccess [] :=
  (Arena.find_set h ..).trans (if_neg fun he => hidx (congrArg Prod.fst he).symm)

theorem agrees_tmpSetxattrLocal {e e' : TmpEntry} (h : e.node.Agrees)
    (hc : tmpSetxattrLocal e cred name val flags = .ok e') : e'.node.Agrees := by
  obtain ⟨⟨idx, suf⟩, hname, hc⟩ := ok_of_bind hc
  obtain ⟨-, -, hc⟩ := ok_of_bind hc
  split at hc
  · next hacl =>
    obtain rfl := suffix_of_parseName hname hacl
    split at hc
    · obtain rfl := ok.inj hc
      exact h.drop (Arena.find_drop ..) rfl
    obtain ⟨s, hs, hc⟩ := ok_of_bind hc
    obtain ⟨acl, hr, rfl⟩ := aclValidate_iff.mp hs
    split at hc
    · next hidx =>
      subst hidx
      split at hc
      · -- no more than a mode: the ACL goes
        obtain rfl := ok.inj hc
        exact agrees_of_none ((Arena.find_drop ..).trans (if_pos rfl))
      · obtain ⟨x, hx, hc⟩ := ok_of_bind hc
        obtain rfl := ok.inj hc
        refine agrees_of_reads ((Arena.find_set hx ..).trans (if_pos rfl)) hr ?_
        rw [TmpEntry.node, classes_tmpMeta, classes_withPermBits (by decide) (by decide),
          classes_setWidth (by decide), classes_aclModeBits]
    · next hidx =>
      obtain ⟨x, hx, hc⟩ := ok_of_bind hc
      obtain rfl := ok.inj hc
      exact h.congr (find_access_set hidx hx) rfl
  · next hacl =>
    obtain ⟨x, hx, hc⟩ := ok_of_bind hc
    obtain rfl := ok.inj hc
    exact h.congr (find_access_set (fun hidx => hacl (.inl hidx)) hx) rfl

theorem agrees_tmpRemovexattrLocal {e e' : TmpEntry}
    (h : e.node.Agrees) (hc : tmpRemovexattrLocal e cred name = .ok e') : e'.node.Agrees := by
  obtain ⟨⟨idx, suf⟩, -, hc⟩ := ok_of_bind hc
  obtain ⟨-, -, hc⟩ := ok_of_bind hc
  obtain ⟨x, hx, hc⟩ := ok_of_bind hc
  obtain rfl := ok.inj hc
  exact h.drop (Arena.find_remove hx ..) rfl

/-! ### F2FS -/

theorem Inode.find_of_xattr {a : Arena f2fsXattrArena} (h : n.xattr = some a) (i : Index) :
    n.find i = a.find i [] := by
  rw [Inode.find, h, bind_some]

/-- The arena a call works on has the attributes of the inode. -/
theorem Inode.find_arena (n : Inode) (i : Index) : n.arena.find i [] = n.find i := by
  unfold Inode.arena Inode.find
  cases n.xattr with
  | none => exact Arena.find_empty (by decide) i []
  | some => rfl

theorem agrees_chmodInode {n' : Inode} {mode : BitVec 32} {euid : Id} (h : n.node.Agrees)
    (hc : chmodInode n mode euid = .ok n') : n'.node.Agrees ∧ classes n'.mode = classes mode := by
  unfold chmodInode at hc
  split at hc
  · contradiction
  obtain rfl := ok.inj hc
  have hmode : classes ((n.mode &&& sIfmt) ||| (mode.setWidth 16 &&& ~~~sIfmt)) = classes mode := by
    rw [classes_and_or (by decide), classes_and_of_all (by decide), classes_setWidth (by decide)]
  generalize (n.mode &&& sIfmt) ||| (mode.setWidth 16 &&& ~~~sIfmt) = newMode at hmode ⊢
  split
  · next v hv =>
    obtain ⟨acl, hr, -⟩ := agrees_iff.mp h v hv
    refine ⟨agrees_of_reads (Arena.find_put_same_length ((n.find_arena _).trans hv)
      (aclChmodRewrite_spec v _).1.length_eq) (hr.aclChmodRewrite _) ?_, hmode⟩
    rw [aclClasses_withClasses]
    rfl
  · next hnone => exact ⟨agrees_of_none hnone, hmode⟩

theorem agrees_chownInode {n' : Inode} {uid gid : Id} (h : n.node.Agrees)
    (hc : chownInode n uid gid cred = .ok n') : n'.node.Agrees := by
  unfold chownInode at hc
  split at hc
  · obtain rfl := ok.inj hc
    refine h.congr rfl ?_
    split
    · -- the set-id bits are above the classes
      refine classes_and_of_all ?_ n.mode
      split <;> decide
    · rfl
  · contradiction

/-- The access ACL of an inode from whose node, if it has one, the ACL `idx` was dropped. -/
theorem find_access_map_drop (x : Option (Arena f2fsXattrArena)) (idx : Index) :
    (x.map (·.drop idx [])).bind (·.find .aclAccess []) =
      if (Index.aclAccess, ([] : List Byte)) = (idx, []) then none else x.bind (·.find .aclAccess []) := by
  cases x with
  | none => simp
  | some => exact Arena.find_drop ..

/-- The inode of a call that stored an arena. -/
theorem of_persist {n' : Inode} {a : Arena f2fsXattrArena}
    (h : n.persist room a = some n') : n' = { n with xattr := some a } := by
  unfold Inode.persist at h
  split at h
  · exact (Option.some.inj h).symm
  · contradiction

/-- Setting an attribute keeps mode and access ACL in line. -/
theorem agrees_xattrSet {n' : Inode}
    (h : n.node.Agrees) (hc : xattrSet n cred name val flags room = .ok n') : n'.node.Agrees := by
  obtain ⟨⟨idx, suf⟩, hname, hc⟩ := ok_of_bind hc
  obtain ⟨-, -, hc⟩ := ok_of_bind hc
  -- the attributes of another name than the access ACL
  have hother {a : Arena f2fsXattrArena} (hidx : idx ≠ .aclAccess) (ha : n.arena.set idx suf val flags = .ok a) :
      a.find .aclAccess [] = n.find .aclAccess :=
    (find_access_set hidx ha).trans (n.find_arena _)
  split at hc
  · next hacl =>
    obtain rfl := suffix_of_parseName hname hacl
    split at hc
    · obtain rfl := ok.inj hc
      exact h.drop (find_access_map_drop n.xattr idx) rfl
    obtain ⟨s, hs, hc⟩ := ok_of_bind hc
    obtain ⟨acl, hr, rfl⟩ := aclValidate_iff.mp hs
    split at hc
    · next hidx =>
      subst hidx
      split at hc
      · obtain rfl := ok.inj hc
        exact agrees_of_none ((find_access_map_drop n.xattr .aclAccess).trans (if_pos rfl))
      obtain ⟨a, ha, hc⟩ := ok_of_bind hc
      split at hc
      · next m hm =>
        obtain rfl := ok.inj hc
        obtain rfl := of_persist hm
        refine agrees_of_reads ((Arena.find_set ha ..).trans (if_pos rfl)) hr ?_
        exact ((classes_withPermBits (by decide) (by decide) _ _).trans
          (classes_aclModeBits acl)).symm
      · contradiction
    · next hidx =>
      obtain ⟨a, ha, hc⟩ := ok_of_bind hc
      split at hc
      · next m hm =>
        obtain rfl := ok.inj hc
        obtain rfl := of_persist hm
        exact h.congr (hother hidx ha) rfl
      · contradiction
  · next hacl =>
    obtain ⟨a, ha, hc⟩ := ok_of_bind hc
    split at hc
    · next m hm =>
      obtain rfl := ok.inj hc
      obtain rfl := of_persist hm
      exact h.congr (hother (fun hidx => hacl (.inl hidx)) ha) rfl
    · contradiction

theorem agrees_xattrRemove {n' : Inode} (h : n.node.Agrees)
    (hc : xattrRemove n cred name = .ok n') : n'.node.Agrees := by
  obtain ⟨⟨idx, suf⟩, -, hc⟩ := ok_of_bind hc
  obtain ⟨-, -, hc⟩ := ok_of_bind hc
  split at hc
  · contradiction
  next a ha =>
  obtain ⟨x, hx, hc⟩ := ok_of_bind hc
  obtain rfl := ok.inj hc
  have hfind := Arena.find_remove hx .aclAccess []
  rw [← n.find_of_xattr ha] at hfind
  exact h.drop hfind rfl

/-! ### Creation -/

/-- What is stored of a creation: nothing or an ACL that agrees with the mode. -/
structure Created.Sound (c : Created) : Prop where
  short : c.access.length ≤ aclInheritMax
  agrees : 0 < c.access.length → ∃ acl, Reads c.access acl ∧ aclClasses acl = classes c.mode

/-- What is inherited fits and agrees with the mode. -/
theorem aclCreate_sound (dacl : Option (List Byte)) (mode umask : BitVec 16) (isDir : Bool) :
    (aclCreate dacl mode umask isDir).Sound := by
  cases hf : dacl.filter fun v => v.length ≤ aclInheritMax ∧ (aclValidate v).isOk with
  | none =>
    -- no default ACL to go by
    have hplain : (aclCreate dacl mode umask isDir).access = [] := by rw [aclCreate, hf]
    constructor
    · rw [hplain]
      exact Nat.zero_le _
    · intro h
      rw [hplain] at h
      contradiction
  | some v =>
    obtain ⟨rfl, hv⟩ := Option.filter_eq_some_iff.mp hf
    obtain ⟨hlen, hok⟩ := of_decide_eq_true hv
    obtain ⟨s, hs⟩ : ∃ s, aclValidate v = .ok s := by
      cases hval : aclValidate v with
      | ok s => exact ⟨s, rfl⟩
      | error => simp [hval, isOk, Except.toBool] at hok
    obtain ⟨acl, hr, -⟩ := aclValidate_iff.mp hs
    obtain ⟨-, hclasses, htriv, hstored⟩ := hr.aclCreate hlen mode umask isDir
    by_cases ht : acl.IsTrivial
    · constructor
      · rw [htriv ht]
        exact Nat.zero_le _
      · intro h
        rw [htriv ht] at h
        contradiction
    · obtain ⟨hread, hlen'⟩ := hstored ht
      exact ⟨hlen' ▸ hlen, fun _ => ⟨_, hread, hclasses.symm⟩⟩

/-- The arena of a new inode has room for both ACLs. -/
theorem find_inherit (hcap : 532 ≤ cap) {dacl : Option (List Byte)}
    (hc : c.access.length ≤ aclInheritMax) (hd : ∀ v ∈ dacl, v.length ≤ aclInheritMax) (h4 : 4 ≤ cap) :
    ((Arena.empty cap h4).inherit c dacl).find .aclAccess [] =
        (if 0 < c.access.length then some c.access else none) ∧
      (c.inheritDefault → ((Arena.empty cap h4).inherit c dacl).find .aclDefault [] = dacl) := by
  have hmax : aclInheritMax = 260 := rfl
  have hentry {v : List Byte} (hv : v.length ≤ aclInheritMax) : entryLen [] v ≤ 264 := by
    unfold entryLen align4
    simp only [List.length_nil]
    omega
  -- the access ACL first
  obtain ⟨a, ha, haccess, hdflt, hused⟩ : ∃ a,
      (if 0 < c.access.length then (Arena.empty cap h4).put .aclAccess c.access else .empty cap h4) = a ∧
      a.find .aclAccess [] = (if 0 < c.access.length then some c.access else none) ∧
      a.find .aclDefault [] = none ∧ a.used ≤ 264 := by
    refine ⟨_, rfl, ?_⟩
    have hempty := Arena.used_empty h4
    have hroom := hentry hc
    split
    · have hval : c.access.length ≤ 65535 := by omega
      obtain ⟨hfind, hused⟩ := Arena.find_put_of_room hval (a := .empty cap h4) (by omega)
      refine ⟨hfind, ?_, by omega⟩
      rw [Arena.find_put_of_ne (by decide), Arena.find_empty]
    · exact ⟨Arena.find_empty .., Arena.find_empty .., by omega⟩
  unfold Arena.inherit
  rw [ha]
  cases dacl with
  | none => exact ⟨haccess, fun _ => hdflt⟩
  | some v =>
    have hv := hd v rfl
    cases hin : c.inheritDefault with
    | false => exact ⟨haccess, nofun⟩
    | true =>
      have hroom := hentry hv
      exact ⟨(Arena.find_put_of_ne (by decide)).trans haccess,
        fun _ => (Arena.find_put_of_room (by omega) (by omega)).1⟩

/-- An inode that was just created with what `acl_create` said. -/
structure Node.IsNew (n : Node) (c : Created) (dacl : Option (List Byte)) : Prop where
  mode : classes n.fileMeta.mode = classes c.mode
  access : n.access = if 0 < c.access.length then some c.access else none
  dflt : c.inheritDefault → n.dflt = dacl

theorem Node.IsNew.agrees {n : Node} {dacl : Option (List Byte)} (h : n.IsNew c dacl)
    (hc : c.Sound) : n.Agrees := by
  have haccess := h.access
  split at haccess
  · next hlen =>
    obtain ⟨acl, hr, hclasses⟩ := hc.agrees hlen
    exact agrees_of_reads haccess hr (hclasses.trans h.mode.symm)
  · exact agrees_of_none haccess

theorem Node.IsNew.inherited {n : Node} {dacl : List Byte} {mode umask : BitVec 16}
    (h : n.IsNew (aclCreate (some dacl) mode umask (kind = .dir)) (some dacl))
    (hlen : dacl.length ≤ aclInheritMax) : n.Inherited kind dacl mode := by
  intro acl hr
  obtain ⟨hdir, hclasses, htriv, hstored⟩ := hr.aclCreate hlen mode umask (kind = .dir)
  refine ⟨?_, fun hk => h.dflt (hdir.trans (decide_eq_true hk))⟩
  have haccess := h.access
  by_cases ht : acl.IsTrivial
  · rw [htriv ht, if_neg (by simp)] at haccess
    have hmode : classes n.fileMeta.mode = _ := h.mode.trans hclasses
    rw [Acl.restrict, aclClasses_withClasses] at hmode
    obtain ⟨hu, hg, ho⟩ := Prod.ext_iff.mp hmode |>.imp_right Prod.ext_iff.mp
    rw [haccess, HasAcl, Acl.restrict, Acl.withClasses_of_isTrivial ht]
    dsimp only [classes] at hu hg ho
    rw [hu, hg, ho]
  · obtain ⟨hread, hsame⟩ := hstored ht
    have hpos : 0 < dacl.length := Nat.lt_of_lt_of_le (by decide) hr.hdr
    rw [if_pos (hsame ▸ hpos)] at haccess
    rw [haccess]
    exact hread

/-- The default ACL that a creation goes by. -/
def inheritable (dflt : Option (List Byte)) : Option (List Byte) :=
  dflt.filter fun v => v.length ≤ aclInheritMax ∧ 0 < v.length

theorem length_of_mem_inheritable {dflt : Option (List Byte)} {v : List Byte}
    (h : v ∈ inheritable dflt) : v.length ≤ aclInheritMax :=
  (of_decide_eq_true (Option.filter_eq_some_iff.mp h).2).1

theorem inheritable_of_reads {dacl : List Byte} {acl : Acl Id} (hr : Reads dacl acl)
    (hlen : dacl.length ≤ aclInheritMax) : inheritable (some dacl) = some dacl := by
  have hpos : 0 < dacl.length := Nat.lt_of_lt_of_le (by decide) hr.hdr
  rw [inheritable, Option.filter_some, if_pos (decide_eq_true ⟨hlen, hpos⟩)]

theorem isNew_tmpCreate (parent : Option TmpEntry) (hk : kind ≠ .link) (cred : Cred)
    (mode umask : BitVec 16) : (tmpCreate parent kind cred mode umask).node.IsNew
      (aclCreate (inheritable (parent.bind (·.node.dflt))) mode umask (kind = .dir))
      (inheritable (parent.bind (·.node.dflt))) := by
  unfold tmpCreate
  rw [if_neg hk]
  obtain ⟨haccess, hdflt⟩ := find_inherit (by decide : 532 ≤ tmpXattrArena)
    (aclCreate_sound (inheritable (parent.bind (·.node.dflt))) mode umask (kind = .dir)).short
    (fun v hv => length_of_mem_inheritable hv) (by decide)
  refine ⟨?_, haccess, hdflt⟩
  rw [TmpEntry.node, classes_tmpMeta]
  exact classes_setWidth (by decide) _

/-- The type of an inode is above the classes. -/
theorem classes_ifmt {k : Kind} (mode : BitVec 16) :
    classes ((if k = .dir then sIfdir else sIfreg) ||| (mode &&& 0o7777)) = classes mode := by
  have hifmt : classes (if k = .dir then sIfdir else sIfreg) = 0 := by split <;> decide
  rw [classes_or_of_zero hifmt, classes_and_of_all (by decide)]

/-- `store_inherited_acls` when there is a block, or nothing to store. -/
theorem storeInheritedAcls_spec {parent : Inode} (hn : n.xattr = none)
    (hc : c.access.length ≤ aclInheritMax)
    (hroom : room = true ∨ c.access.length = 0 ∧ parentDefaultAcl parent = none) :
    (storeInheritedAcls n parent c room).mode = n.mode ∧
      (storeInheritedAcls n parent c room).find .aclAccess =
        (if 0 < c.access.length then some c.access else none) ∧ (c.inheritDefault →
        (storeInheritedAcls n parent c room).find .aclDefault = parentDefaultAcl parent) := by
  have hfind (i : Index) : n.find i = none := by rw [Inode.find, hn, bind_none]
  unfold storeInheritedAcls
  dsimp only
  generalize hdacl : (if c.inheritDefault then parentDefaultAcl parent else none) = dacl
  have hin : c.inheritDefault → dacl = parentDefaultAcl parent := fun hin => by rw [← hdacl,
    if_pos hin]
  -- what is inherited fits, as it was measured on the parent
  have hlen : ∀ v ∈ dacl, v.length ≤ aclInheritMax := by
    intro v hv
    rw [← hdacl] at hv
    split at hv
    · exact length_of_mem_inheritable hv
    · contradiction
  split
  · next hnone =>
    refine ⟨rfl, by rw [hfind, if_neg (by omega)], fun hdir => ?_⟩
    rw [hfind, ← hin hdir, hnone.2]
  · next hstore =>
    have hroom' : room = true := by
      refine hroom.resolve_right fun hno => hstore ⟨hno.1, ?_⟩
      rw [← hdacl, hno.2, ite_self]
    -- both ACLs fit into the arena together
    obtain ⟨haccess, hdflt⟩ := find_inherit (by decide : 532 ≤ f2fsXattrArena) hc hlen (by decide)
    rw [Inode.persist, hroom', Bool.or_true]
    exact ⟨rfl, haccess, fun hdir => (hdflt hdir).trans (hin hdir)⟩

/-- On F2FS, if there is a block for the ACLs or there are none. -/
theorem isNew_f2fsCreate (parent : Inode) (hk : kind ≠ .link) (cred : Cred)
    (mode umask : BitVec 16) (hroom : parent.node.dflt = none ∨ room = true) :
    (f2fsCreate parent kind cred mode umask room).node.IsNew
      (aclCreate (inheritable parent.node.dflt) mode umask (kind = .dir))
      (inheritable parent.node.dflt) := by
  have hsound := aclCreate_sound (inheritable parent.node.dflt) mode umask (kind = .dir)
  have hstore : room = true ∨ (aclCreate (inheritable parent.node.dflt) mode umask
      (kind = .dir)).access.length = 0 ∧ parentDefaultAcl parent = none := by
    refine hroom.symm.imp_right fun hno => ?_
    have hnone : inheritable parent.node.dflt = none := by rw [hno]; rfl
    rw [hnone]
    exact ⟨rfl, hnone⟩
  unfold f2fsCreate
  rw [if_neg hk]
  obtain ⟨hmode, haccess, hdflt⟩ := storeInheritedAcls_spec
    (n := ⟨(if kind = .dir then sIfdir else sIfreg) ||| ((aclCreate (inheritable parent.node.dflt) mode
      umask (kind = .dir)).mode &&& 0o7777), cred.euid, cred.egid, none⟩) rfl hsound.short hstore
  refine ⟨?_, haccess, hdflt⟩
  exact (congrArg classes hmode).trans (classes_ifmt _)

/-! ### Runs -/

namespace State

/-- What the code's buffers hold: on tmpfs the ACL of an inode whose mode changes, on both
filesystems the default ACL that a creation inherits. On F2FS there is a block to store the latter. -/
def Apt (s : State) : Action → Prop
  | .tmpCreate _ parent _ _ _ _ =>
    ∀ v ∈ (parent.bind s.tmp).bind (·.node.dflt), v.length ≤ aclInheritMax
  | .tmpCall idx (.chmod _ _) => ∀ v ∈ (s.tmp idx).bind (·.node.access), v.length ≤ 256
  | .f2fsCreate _ parent _ _ _ _ room =>
    ∀ v ∈ (s.ino parent).bind (·.node.dflt), v.length ≤ aclInheritMax ∧ room = true
  | _ => True

instance (s : State) (a : Action) : Decidable (s.Apt a) :=
  match a with
  | .tmpCreate .. => inferInstanceAs (Decidable (∀ v ∈ _, _))
  | .tmpCall _ (.chmod ..) => inferInstanceAs (Decidable (∀ v ∈ _, _))
  | .f2fsCreate .. => inferInstanceAs (Decidable (∀ v ∈ _, _))
  | .tmpFree _ | .tmpCall _ (.chown ..) | .tmpCall _ (.setxattr ..) | .tmpCall _ (.removexattr ..)
  | .f2fsFree _ | .f2fsCall .. => inferInstanceAs (Decidable True)

/-- Every inode's ACL agrees with its mode. -/
structure Inv (s : State) : Prop where
  tmp : ∀ i e, s.tmp i = some e → e.node.Agrees
  ino : ∀ i n, s.ino i = some n → n.node.Agrees

theorem access_of_empty {e : TmpEntry} (h : e.xattr = .empty tmpXattrArena (by decide)) :
    e.node.access = none := by
  simp [TmpEntry.node, h]

variable {s : State}

theorem Init.inv (h : s.Init) : s.Inv := by
  constructor
  · intro i e he
    rw [h.tmp, update_apply] at he
    obtain ⟨-, rfl⟩ := guard_eq_some he
    exact agrees_of_none (access_of_empty rfl)
  · intro i n hn
    exact agrees_of_none (by rw [Inode.node, Inode.find, h.ino i n hn, bind_none])

theorem agrees_tmpCreate (parent : Option TmpEntry) (kind : Kind) (cred : Cred) (mode umask : BitVec 16) :
    (tmpCreate parent kind cred mode umask).node.Agrees := by
  by_cases hk : kind = .link
  · subst hk
    exact agrees_of_none (access_of_empty rfl)
  · exact (isNew_tmpCreate parent hk cred mode umask).agrees (aclCreate_sound ..)

theorem agrees_f2fsCreate (parent : Inode) (kind : Kind) (cred : Cred) (mode umask : BitVec 16)
    {room : Bool} (hroom : parent.node.dflt = none ∨ room = true) :
    (f2fsCreate parent kind cred mode umask room).node.Agrees := by
  by_cases hk : kind = .link
  · subst hk
    exact agrees_of_none rfl
  · exact (isNew_f2fsCreate parent hk cred mode umask hroom).agrees (aclCreate_sound ..)

theorem agrees_tmpCall {e e' : TmpEntry} {call : Call} (h : e.node.Agrees)
    (hlen : ∀ euid mode, call = .chmod euid mode → ∀ v, e.xattr.find .aclAccess [] = some v → v.length ≤ 256)
    (hc : Xattr.tmpCall e call = .ok e') : e'.node.Agrees := by
  cases call with
  | chmod euid mode => exact (agrees_tmpChmod h (hlen euid mode rfl) hc).1
  | chown => exact agrees_applyChown h hc
  | setxattr => exact agrees_tmpSetxattrLocal h hc
  | removexattr => exact agrees_tmpRemovexattrLocal h hc

theorem agrees_f2fsCall {n n' : Inode} {room : Bool} {call : Call} (h : n.node.Agrees)
    (hc : Xattr.f2fsCall n room call = .ok n') : n'.node.Agrees := by
  cases call with
  | chmod => exact (agrees_chmodInode h hc).1
  | chown => exact agrees_chownInode h hc
  | setxattr => exact agrees_xattrSet h hc
  | removexattr => exact agrees_xattrRemove h hc

theorem Inv.setTmp (h : s.Inv) {i : Nat} {o : Option TmpEntry}
    (ho : ∀ e, o = some e → e.node.Agrees) : Inv { s with tmp := update s.tmp i o } := by
  refine ⟨fun j e he => ?_, h.ino⟩
  dsimp only at he
  rw [update_apply] at he
  split at he
  · exact ho e he
  · exact h.tmp j e he

theorem Inv.setIno (h : s.Inv) {i : Nat} {o : Option Inode}
    (ho : ∀ n, o = some n → n.node.Agrees) : Inv { s with ino := update s.ino i o } := by
  refine ⟨h.tmp, fun j n hn => ?_⟩
  dsimp only at hn
  rw [update_apply] at hn
  split at hn
  · exact ho n hn
  · exact h.ino j n hn

/-- Every step of either filesystem keeps modes and ACLs in line. -/
theorem Inv.step {s' : State} (h : s.Inv) {a : Action} (ha : s.Apt a) (hs : s.step a = some s') :
    s'.Inv := by
  cases a with
  | tmpCreate idx parent kind cred mode umask =>
    obtain ⟨p, -, hs⟩ := bind_eq_some_iff.mp hs
    obtain ⟨-, rfl⟩ := guard_eq_some hs
    refine h.setTmp ?_
    rintro _ ⟨⟩
    exact agrees_tmpCreate p kind cred mode umask
  | tmpFree =>
    cases hs
    exact h.setTmp nofun
  | tmpCall idx =>
    obtain ⟨e, he, hs⟩ := Option.map_eq_some_iff.mp hs
    split at hs
    · next e' hc =>
      subst hs
      refine h.setTmp ?_
      rintro _ ⟨⟩
      refine agrees_tmpCall (h.tmp idx e he) (fun euid mode hcall v hv => ?_) hc
      subst hcall
      exact ha v (by rw [he]; exact hv)
    · exact hs ▸ h
  | f2fsCreate ino parent kind cred mode umask =>
    obtain ⟨p, hp, hs⟩ := bind_eq_some_iff.mp hs
    obtain ⟨-, rfl⟩ := guard_eq_some hs
    refine h.setIno ?_
    rintro _ ⟨⟩
    refine agrees_f2fsCreate p kind cred mode umask ?_
    cases hd : p.node.dflt with
    | none => exact .inl rfl
    | some v => exact .inr (ha v (by rw [hp]; exact hd)).2
  | f2fsFree =>
    cases hs
    exact h.setIno nofun
  | f2fsCall ino =>
    obtain ⟨n, hn, hs⟩ := Option.map_eq_some_iff.mp hs
    split at hs
    · next n' hc =>
      subst hs
      refine h.setIno ?_
      rintro _ ⟨⟩
      exact agrees_f2fsCall (h.ino ino n hn) hc
    · exact hs ▸ h

/-- What a step promises besides: a `chmod` that succeeds bounds what is granted, and what is created
under a default ACL inherits it. A symlink has no ACL. -/
def Effect (s s' : State) : Action → Prop
  | .tmpCall idx (.chmod euid mode) => ∀ e e', s.tmp idx = some e → tmpChmod e euid mode = .ok e' →
      s'.tmp idx = some e' ∧ e'.node.Within mode
  | .f2fsCall ino _ (.chmod euid mode) => ∀ n n', s.ino ino = some n → chmodInode n mode euid = .ok n' →
      s'.ino ino = some n' ∧ n'.node.Within mode
  | .tmpCreate idx parent kind _ mode _ => kind ≠ .link → ∀ dacl,
      (parent.bind s.tmp).bind (·.node.dflt) = some dacl →
        ∃ e, s'.tmp idx = some e ∧ e.node.Inherited kind dacl mode
  | .f2fsCreate ino parent kind _ mode _ _ => kind ≠ .link → ∀ dacl,
      (s.ino parent).bind (·.node.dflt) = some dacl →
        ∃ n, s'.ino ino = some n ∧ n.node.Inherited kind dacl mode
  | _ => True

/-- An inode whose ACL agrees with its mode grants within a mode of the same bits. -/
theorem within_of_agrees {n : Node} (h : n.Agrees) {mode : BitVec 32}
    (hc : classes n.fileMeta.mode = classes mode) : n.Within mode := by
  obtain ⟨acl, hacl, hclasses⟩ := h.exists_hasAcl
  exact within_of_hasAcl hacl (hclasses.trans hc)

theorem tmpParent_dflt {parent : Option Nat} {p : Option TmpEntry}
    (h : s.tmpParent parent = some p) :
    p.bind (·.node.dflt) = (parent.bind s.tmp).bind (·.node.dflt) := by
  cases parent with
  | none =>
    cases h
    rfl
  | some =>
    obtain ⟨e, he, h⟩ := bind_eq_some_iff.mp h
    obtain ⟨-, rfl⟩ := guard_eq_some h
    rw [bind_some, bind_some, he, bind_some]

/-- What a chmod and a creation do to the permissions. -/
theorem Inv.effect {s' : State} (h : s.Inv) {a : Action} (ha : s.Apt a) (hs : s.step a = some s') :
    s.Effect s' a := by
  cases a with
  | tmpCall idx call =>
    cases call with
    | chmod =>
      intro e e' he hc
      obtain ⟨hagrees, hmode⟩ := agrees_tmpChmod (h.tmp idx e he)
        (fun v hv => ha v (by rw [he]; exact hv)) hc
      simp only [State.step, he, map_some, Xattr.tmpCall, hc, Option.some.injEq] at hs
      subst hs
      exact ⟨update_self .., within_of_agrees hagrees ((classes_tmpMeta e').trans hmode)⟩
    | chown | setxattr | removexattr => trivial
  | f2fsCall ino room call =>
    cases call with
    | chmod =>
      intro n n' hn hc
      obtain ⟨hagrees, hmode⟩ := agrees_chmodInode (h.ino ino n hn) hc
      simp only [State.step, hn, map_some, Xattr.f2fsCall, hc, Option.some.injEq] at hs
      subst hs
      exact ⟨update_self .., within_of_agrees hagrees hmode⟩
    | chown | setxattr | removexattr => trivial
  | tmpCreate idx parent kind cred mode umask =>
    intro hk dacl hd
    obtain ⟨p, hp, hs⟩ := bind_eq_some_iff.mp hs
    obtain ⟨-, rfl⟩ := guard_eq_some hs
    refine ⟨_, update_self .., fun acl hr => ?_⟩
    have hnew := isNew_tmpCreate p hk cred mode umask
    -- the default ACL of the parent is inheritable as it reads as one and fits
    rw [tmpParent_dflt hp, hd, inheritable_of_reads hr (ha dacl hd)] at hnew
    exact hnew.inherited (ha dacl hd) acl hr
  | f2fsCreate ino parent kind cred mode umask =>
    intro hk dacl hd
    obtain ⟨p, hp, hs⟩ := bind_eq_some_iff.mp hs
    obtain ⟨-, rfl⟩ := guard_eq_some hs
    refine ⟨_, update_self .., fun acl hr => ?_⟩
    obtain ⟨hlen, hroom⟩ := ha dacl hd
    rw [hp, bind_some] at hd
    have hnew := isNew_f2fsCreate p hk cred mode umask (.inr hroom)
    rw [hd, inheritable_of_reads hr hlen] at hnew
    exact hnew.inherited hlen acl hr
  | tmpFree | f2fsFree => trivial

/-- **Mode bits and ACLs agree.** In every state of a run, a stored access ACL is well formed and has the
bits of the mode for its classes; a `chmod` in that state bounds what anyone but root is granted by the
bits of the new mode for their class; and what is created under a valid default ACL has it, with its
classes cut down to the mode that was asked for, and a directory has it as its own default ACL. -/
theorem modes_and_acls_agree {s : State} (hr : Reachable Init Apt step s) :
    (∀ i e, s.tmp i = some e → e.node.Agrees) ∧ (∀ i n, s.ino i = some n → n.node.Agrees) ∧
      ∀ a s', s.Apt a → s.step a = some s' → s.Effect s' a := by
  have hinv : s.Inv := hr.invariant (fun _ => Init.inv) fun _ _ _ hI ha hs => hI.step ha hs
  exact ⟨hinv.tmp, hinv.ino, fun a s' ha hs => hinv.effect ha hs⟩

/-- The bytes of an ACL of entries whose ids are small. -/
def wire (es : List (BitVec 16 × BitVec 16 × BitVec 16)) : List Byte :=
  toLe16 2 ++ toLe16 0 ++ es.flatMap fun (tag, perm, id) => toLe16 tag ++ toLe16 perm ++ toLe16 id ++ toLe16 0

/-- The state at boot over an empty volume. -/
def boot : State := ⟨update (fun _ => none) 0 (some runUser), fun _ => none⟩

theorem boot_init : Init boot := ⟨rfl, nofun⟩

/-- A user without other groups. -/
def alice : Cred := ⟨1000, 1000, []⟩

/-- An ACL of 32 entries in which everyone has every right. -/
def longAcl : List Byte :=
  wire ([(0x01, 7, 0)] ++ (List.range 28).map (fun i => (0x02, 7, BitVec.ofNat 16 i)) ++
    [(0x04, 7, 0), (0x10, 7, 0), (0x20, 7, 0)])

/-- A `chmod` to mode 0 of a tmpfs file with an ACL of 32 entries leaves the ACL as it was: the owner may
still read and write. -/
theorem chmod_leaves_long_acl :
    ∃ s, Reachable Init (fun _ _ => True) step s ∧ ∃ e, s.tmp 1 = some e ∧ e.mode = 0 ∧
      accessCheck e.node.fileMeta alice e.node.access true true false = true ∧
      ¬ e.node.Agrees ∧ ¬ e.node.Within (0 : BitVec 32) := by
  have hrun : ((replay (fun _ _ => True) step boot [.tmpCreate 1 none .file alice 0o666 0,
      .tmpCall 1 (.setxattr alice aclAccessName longAcl 0), .tmpCall 1 (.chmod 1000 0)]).any fun s =>
        (s.tmp 1).any fun e => e.mode == 0 && e.uid == 1000 &&
          accessCheck e.node.fileMeta alice e.node.access true true false) = true := by
    decide +kernel
  obtain ⟨s, hr, hrun⟩ := Reachable.observe boot_init hrun
  obtain ⟨e, he, hrun⟩ := (any_eq_true _ _).mp hrun
  obtain ⟨⟨hmode, huid⟩, hgrant⟩ : (e.mode = 0 ∧ e.uid = 1000) ∧
      accessCheck e.node.fileMeta alice e.node.access true true false = true := by
    simpa only [Bool.and_eq_true, beq_iff_eq] using hrun
  have hwide : ¬ e.node.Within (0 : BitVec 32) := by
    intro h
    have hbits := h alice (by decide) true true false hgrant
    rw [callerBits, if_pos (by exact huid.symm)] at hbits
    exact absurd hbits (by decide)
  refine ⟨s, hr, e, he, hmode, hgrant, fun h => hwide (within_of_agrees h ?_), hwide⟩
  exact (classes_tmpMeta e).trans (by rw [hmode])

/-- A directory's default ACL: the group may read and write, one user may do all, the mask cuts both
down to reading. -/
def shareAcl : List Byte :=
  wire [(0x01, 7, 0), (0x02, 7, 1001), (0x04, 6, 0), (0x10, 4, 0), (0x20, 0, 0)]

/-- A directory with a default ACL on tmpfs, a file in it that has inherited the ACL, and a `chmod` of
the file. -/
theorem modes_and_acls_agree_share :
    ∃ s, Reachable Init Apt step s ∧ ∃ e, s.tmp 2 = some e ∧ e.node.access ≠ none ∧ e.node.Agrees := by
  have hrun : ((replay Apt step boot [.tmpCreate 1 none .dir alice 0o777 0o022,
      .tmpCall 1 (.setxattr alice aclDefaultName shareAcl 0), .tmpCreate 2 (some 1) .file alice 0o666 0o022,
      .tmpCall 2 (.chmod 1000 0o640)]).any fun s =>
        (s.tmp 2).any fun e => e.node.access.isSome) = true := by
    decide +kernel
  obtain ⟨s, hr, hrun⟩ := Reachable.observe boot_init hrun
  obtain ⟨e, he, hrun⟩ := (any_eq_true _ _).mp hrun
  exact ⟨s, hr, e, he, Option.isSome_iff_ne_none.mp hrun, (modes_and_acls_agree hr).1 2 e he⟩

end State

end Leandros.Xattr
