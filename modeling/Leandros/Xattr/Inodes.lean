import Leandros.Lib.Machine
import Leandros.Xattr.Acl

/-!
# Leandros.Xattr.Inodes

Modes and ACLs of the two filesystems: the creation of inodes, `chmod`, `chown` and the extended
attribute calls of tmpfs (`servers/vfs/src/lib.rs`) and of F2FS (`servers/f2fs/src/lib.rs`), each run
with its pool or its mount locked, and the machine that takes them in any order.

A hard link on tmpfs is an alias that every call here follows to the inode, so that a tmpfs entry is
the slot that owns the inode. Paths are resolved before these calls; a slot's parent is given with the
call that creates it. Where F2FS needs a block for the attributes of an inode, the action says whether
there is one.
-/

namespace Leandros.Xattr

open Function (update)

/-! ### Names -/

/-- `"user."`. -/
def userPrefix : List Byte := [0x75, 0x73, 0x65, 0x72, 0x2e]

/-- `"trusted."`. -/
def trustedPrefix : List Byte := [0x74, 0x72, 0x75, 0x73, 0x74, 0x65, 0x64, 0x2e]

/-- `"system.posix_acl_"`. -/
def posixAcl : List Byte :=
  [0x73, 0x79, 0x73, 0x74, 0x65, 0x6d, 0x2e, 0x70, 0x6f, 0x73, 0x69, 0x78, 0x5f, 0x61, 0x63, 0x6c, 0x5f]

/-- `ACL_ACCESS_NAME`. -/
def aclAccessName : List Byte := posixAcl ++ [0x61, 0x63, 0x63, 0x65, 0x73, 0x73]

/-- `ACL_DEFAULT_NAME`. -/
def aclDefaultName : List Byte := posixAcl ++ [0x64, 0x65, 0x66, 0x61, 0x75, 0x6c, 0x74]

/-- `split_name`. -/
def splitName (full : List Byte) : Option (Index × List Byte) :=
  if userPrefix.isPrefixOf full then some (.user, full.drop userPrefix.length)
  else if full = aclAccessName then some (.aclAccess, [])
  else if full = aclDefaultName then some (.aclDefault, [])
  else if trustedPrefix.isPrefixOf full then some (.trusted, full.drop trustedPrefix.length)
  else none

/-- `XATTR_NAME_MAX`. -/
def xattrNameMax : Nat := 255

/-- `ERANGE`. -/
def eRange : Nat := 34

/-- The name of an attribute call: its length, then its namespace. -/
def parseName (name : List Byte) : Except Nat (Index × List Byte) :=
  if name.length = 0 ∨ xattrNameMax < name.length then .error eRange
  else match splitName name with
    | some r => .ok r
    | none => .error eOpNotSupp

/-- The ACL attributes have no suffix. -/
theorem suffix_of_splitName {full suf : List Byte} {i : Index} (h : splitName full = some (i, suf))
    (hi : i = .aclAccess ∨ i = .aclDefault) : suf = [] := by
  unfold splitName at h
  split at h
  · cases h
    simp at hi
  split at h
  · exact (Prod.mk.inj (Option.some.inj h)).2.symm
  split at h
  · exact (Prod.mk.inj (Option.some.inj h)).2.symm
  split at h
  · cases h
    simp at hi
  · contradiction

/-- An attribute is set, or the arena stays as it is: `let _ = xattr::set(..)`. -/
def Arena.put {cap : Nat} (a : Arena cap) (i : Index) (val : List Byte) : Arena cap :=
  match a.set i [] val 0 with
  | .ok b => b
  | .error _ => a

/-- `let _ = xattr::remove(..)`. -/
def Arena.drop {cap : Nat} (a : Arena cap) (i : Index) (suf : List Byte) : Arena cap :=
  match a.remove i suf with
  | .ok b => b
  | .error _ => a

/-- A creation stores what it inherits: the access ACL, and a directory the default ACL. -/
def Arena.inherit {cap : Nat} (a : Arena cap) (c : Created) (dacl : Option (List Byte)) : Arena cap :=
  let a := if 0 < c.access.length then a.put .aclAccess c.access else a
  match dacl with
  | some v => if c.inheritDefault then a.put .aclDefault v else a
  | none => a

/-! ### tmpfs -/

inductive Kind
  | file
  | dir
  | fifo
  | link
  | sock
  deriving DecidableEq

/-- `tmp_ifmt`. -/
def tmpIfmt : Kind → BitVec 16
  | .dir => 0o040000
  | .link => 0o120000
  | .sock => 0o140000
  | .fifo => 0o010000
  | .file => 0o100000

/-- `TmpFileEntry`, as far as modes and ACLs go. -/
structure TmpEntry where
  kind : Kind
  mode : BitVec 32
  uid : Id
  gid : Id
  xattr : Arena tmpXattrArena

def TmpEntry.empty : TmpEntry := ⟨.file, 0, 0, 0, .empty _ (by decide)⟩

def tmpMeta (e : TmpEntry) : FileMeta :=
  ⟨tmpIfmt e.kind ||| (e.mode.setWidth 16 &&& 0o7777), e.uid, e.gid⟩

/-- `tmp_init_created`; a parent that is a mount root has no entry. -/
def tmpInitCreated (parent : Option TmpEntry) (e : TmpEntry) (mode umask : BitVec 16) : TmpEntry :=
  let dacl := (parent.bind fun p => p.xattr.find .aclDefault []).filter fun v =>
    v.length ≤ aclInheritMax ∧ 0 < v.length
  let c := aclCreate dacl mode umask (e.kind = .dir)
  { e with mode := c.mode.setWidth 32, xattr := e.xattr.inherit c dacl }

/-- What `open`, `mkdir`, `mknod`, `bind` and `symlink` put into a free slot. A symlink has the mode
0777 and takes no part in ACLs. -/
def tmpCreate (parent : Option TmpEntry) (kind : Kind) (cred : Cred) (mode umask : BitVec 16) :
    TmpEntry :=
  let e : TmpEntry := { TmpEntry.empty with kind, uid := cred.euid, gid := cred.egid }
  if kind = .link then { e with mode := 0o777 } else tmpInitCreated parent e mode umask

/-- `tmp_acl_chmod_sync`: an ACL that does not fit its buffer of 256 bytes is left alone. -/
def tmpAclChmodSync (e : TmpEntry) (newMode : BitVec 32) : TmpEntry :=
  match e.xattr.find .aclAccess [] with
  | some v =>
    if v.length ≤ 256 then
      { e with xattr := e.xattr.put .aclAccess (aclChmodRewrite v (newMode.setWidth 16)) }
    else e
  | none => e

/-- `handle_chmod` and `handle_fchmod` on tmpfs. -/
def tmpChmod (e : TmpEntry) (euid : Id) (mode : BitVec 32) : Except Nat TmpEntry :=
  if euid ≠ 0 ∧ euid ≠ e.uid then .error ePerm
  else .ok (tmpAclChmodSync { e with mode := mode &&& 0o7777 } mode)

/-- An id that stays as it is: `u32::MAX`. -/
def unchanged : Id := BitVec.allOnes 32

/-- The rules of `chown(2)` that both filesystems apply. -/
def mayChown (owner : Id) (cred : Cred) (uid gid : Id) : Bool :=
  cred.euid == 0 ||
    (cred.euid == owner && (uid == unchanged || uid == owner) && (gid == unchanged || cred.inGroup gid))

/-- `apply_chown`. -/
def applyChown (e : TmpEntry) (cred : Cred) (uid gid : Id) : Except Nat TmpEntry :=
  if mayChown e.uid cred uid gid then
    .ok { e with
      uid := if uid = unchanged then e.uid else uid
      gid := if gid = unchanged then e.gid else gid }
  else .error ePerm

/-- The mode with other permission bits: `(e.mode & !0o777) | bits`. -/
def withPermBits {w : Nat} (mode bits : BitVec w) : BitVec w := (mode &&& ~~~0o777#w) ||| (bits &&& 0o777#w)

/-- `tmp_setxattr_local`. -/
def tmpSetxattrLocal (e : TmpEntry) (cred : Cred) (name val : List Byte) (flags : BitVec 32) :
    Except Nat TmpEntry := do
  let (idx, suf) ← parseName name
  mayWriteXattr idx (tmpMeta e) cred (e.xattr.find .aclAccess [])
  if idx = .aclAccess ∨ idx = .aclDefault then
    if val.length = 0 then return { e with xattr := e.xattr.drop idx suf }
    let summary ← aclValidate val
    if idx = .aclAccess then
      let bits := (aclModeBits summary).setWidth 32
      if aclIsTrivial summary then
        return { e with mode := withPermBits e.mode bits, xattr := e.xattr.drop .aclAccess [] }
      let x ← e.xattr.set idx suf val flags
      return { e with xattr := x, mode := withPermBits e.mode bits }
    let x ← e.xattr.set idx suf val flags
    return { e with xattr := x }
  let x ← e.xattr.set idx suf val flags
  return { e with xattr := x }

/-- `tmp_removexattr_local`: the mode stays. -/
def tmpRemovexattrLocal (e : TmpEntry) (cred : Cred) (name : List Byte) : Except Nat TmpEntry := do
  let (idx, suf) ← parseName name
  mayWriteXattr idx (tmpMeta e) cred (e.xattr.find .aclAccess [])
  let x ← e.xattr.remove idx suf
  return { e with xattr := x }

/-! ### F2FS -/

/-- An inode, as far as modes and ACLs go; `xattr` is the arena of its xattr node. -/
structure Inode where
  mode : BitVec 16
  uid : Id
  gid : Id
  xattr : Option (Arena f2fsXattrArena)

/-- `load_meta_xnid`. -/
def Inode.fileMeta (n : Inode) : FileMeta := ⟨n.mode, n.uid, n.gid⟩

def Inode.find (n : Inode) (idx : Index) : Option (List Byte) := n.xattr.bind (·.find idx [])

/-- The arena of the node, all zeros where there is none yet. -/
def Inode.arena (n : Inode) : Arena f2fsXattrArena := n.xattr.getD (.empty _ (by decide))

/-- `persist_xattr_block`: a node that is not there yet needs a block. -/
def Inode.persist (n : Inode) (room : Bool) (a : Arena f2fsXattrArena) : Option Inode :=
  if n.xattr.isSome || room then some { n with xattr := some a } else none

/-- `parent_default_acl`. -/
def parentDefaultAcl (parent : Inode) : Option (List Byte) :=
  (parent.find .aclDefault).filter fun v => v.length ≤ aclInheritMax ∧ 0 < v.length

/-- `store_inherited_acls`. -/
def storeInheritedAcls (n parent : Inode) (c : Created) (room : Bool) : Inode :=
  let dacl := if c.inheritDefault then parentDefaultAcl parent else none
  if c.access.length = 0 ∧ dacl = none then n
  else
    let a : Arena f2fsXattrArena := .empty _ (by decide)
    (n.persist room (a.inherit c dacl)).getD n

/-- What `open`, `mkdir` and `symlink` make of a new inode. -/
def f2fsCreate (parent : Inode) (kind : Kind) (cred : Cred) (mode umask : BitVec 16) (room : Bool) :
    Inode :=
  if kind = .link then ⟨sIflnk ||| 0o777, cred.euid, cred.egid, none⟩
  else
    let c := aclCreate (parentDefaultAcl parent) mode umask (kind = .dir)
    let ifmt := if kind = .dir then sIfdir else sIfreg
    storeInheritedAcls ⟨ifmt ||| (c.mode &&& 0o7777), cred.euid, cred.egid, none⟩ parent c room

/-- `chmod_inode`. -/
def chmodInode (n : Inode) (mode : BitVec 32) (euid : Id) : Except Nat Inode :=
  if euid ≠ 0 ∧ euid ≠ n.uid then .error ePerm
  else
    let newMode := (n.mode &&& sIfmt) ||| (mode.setWidth 16 &&& ~~~sIfmt)
    let n := { n with mode := newMode }
    .ok (match n.find .aclAccess with
      | some v => { n with xattr := some (n.arena.put .aclAccess (aclChmodRewrite v newMode)) }
      | none => n)

/-- `chown_inode`: other than of a directory it drops the set-id bits. -/
def chownInode (n : Inode) (uid gid : Id) (cred : Cred) : Except Nat Inode :=
  if mayChown n.uid cred uid gid then
    let kill : BitVec 16 := if n.mode &&& 0o010 ≠ 0 then 0o6000 else 0o4000
    .ok { n with
      uid := if uid = unchanged then n.uid else uid
      gid := if gid = unchanged then n.gid else gid
      mode := if (uid ≠ unchanged ∨ gid ≠ unchanged) ∧ ¬ isDir n.mode then n.mode &&& ~~~kill else n.mode }
  else .error ePerm

/-- `xattr_set`. -/
def xattrSet (n : Inode) (cred : Cred) (name val : List Byte) (flags : BitVec 32) (room : Bool) :
    Except Nat Inode := do
  let (idx, suf) ← parseName name
  mayWriteXattr idx n.fileMeta cred (n.find .aclAccess)
  if idx = .aclAccess ∨ idx = .aclDefault then
    if val.length = 0 then
      return { n with xattr := n.xattr.map (·.drop idx suf) }
    let summary ← aclValidate val
    if idx = .aclAccess then
      let bits := aclModeBits summary
      if aclIsTrivial summary then
        return { n with mode := withPermBits n.mode bits, xattr := n.xattr.map (·.drop .aclAccess []) }
      let a ← n.arena.set idx suf val flags
      match n.persist room a with
      | some n => return { n with mode := withPermBits n.mode bits }
      | none => throw eNoSpc
    else
      let a ← n.arena.set idx suf val flags
      match n.persist room a with
      | some n => return n
      | none => throw eNoSpc
  else
    let a ← n.arena.set idx suf val flags
    match n.persist room a with
    | some n => return n
    | none => throw eNoSpc

/-- `xattr_remove`. -/
def xattrRemove (n : Inode) (cred : Cred) (name : List Byte) : Except Nat Inode := do
  let (idx, suf) ← parseName name
  mayWriteXattr idx n.fileMeta cred (n.find .aclAccess)
  match n.xattr with
  | none => throw eNoData
  | some a => return { n with xattr := some (← a.remove idx suf) }

/-! ### The machine -/

/-- The calls on an inode that is there. -/
inductive Call
  | chmod (euid : Id) (mode : BitVec 32)
  | chown (cred : Cred) (uid gid : Id)
  | setxattr (cred : Cred) (name val : List Byte) (flags : BitVec 32)
  | removexattr (cred : Cred) (name : List Byte)

def tmpCall (e : TmpEntry) : Call → Except Nat TmpEntry
  | .chmod euid mode => tmpChmod e euid mode
  | .chown cred uid gid => applyChown e cred uid gid
  | .setxattr cred name val flags => tmpSetxattrLocal e cred name val flags
  | .removexattr cred name => tmpRemovexattrLocal e cred name

def f2fsCall (n : Inode) (room : Bool) : Call → Except Nat Inode
  | .chmod euid mode => chmodInode n mode euid
  | .chown cred uid gid => chownInode n uid gid cred
  | .setxattr cred name val flags => xattrSet n cred name val flags room
  | .removexattr cred name => xattrRemove n cred name

structure State where
  /-- The slots of the tmpfs pool in use. -/
  tmp : Nat → Option TmpEntry
  /-- The inodes of the volume. -/
  ino : Nat → Option Inode

inductive Action
  /-- A parent that is a mount root has no slot. -/
  | tmpCreate (idx : Nat) (parent : Option Nat) (kind : Kind) (cred : Cred) (mode umask : BitVec 16)
  /-- Nothing names the slot any more. -/
  | tmpFree (idx : Nat)
  | tmpCall (idx : Nat) (call : Call)
  | f2fsCreate (ino parent : Nat) (kind : Kind) (cred : Cred) (mode umask : BitVec 16) (room : Bool)
  | f2fsFree (ino : Nat)
  | f2fsCall (ino : Nat) (room : Bool) (call : Call)

namespace State

/-- The slot of the parent directory, which creation has found before. -/
def tmpParent (s : State) : Option Nat → Option (Option TmpEntry)
  | none => some none
  | some p => (s.tmp p).bind fun e => if e.kind = .dir then some (some e) else none

/-- A call that fails leaves everything as it is. -/
def step (s : State) : Action → Option State
  | .tmpCreate idx parent kind cred mode umask => do
      let p ← s.tmpParent parent
      if (s.tmp idx).isNone then
        some { s with tmp := update s.tmp idx (some (tmpCreate p kind cred mode umask)) }
      else none
  | .tmpFree idx => some { s with tmp := update s.tmp idx none }
  | .tmpCall idx call => (s.tmp idx).map fun e =>
    match Xattr.tmpCall e call with
    | .ok e' => { s with tmp := update s.tmp idx (some e') }
    | .error _ => s
  | .f2fsCreate ino parent kind cred mode umask room => do
      let p ← s.ino parent
      if isDir p.mode ∧ (s.ino ino).isNone then
        some { s with ino := update s.ino ino (some (f2fsCreate p kind cred mode umask room)) }
      else none
  | .f2fsFree ino => some { s with ino := update s.ino ino none }
  | .f2fsCall ino room call => (s.ino ino).map fun n =>
    match Xattr.f2fsCall n room call with
    | .ok n' => { s with ino := update s.ino ino (some n') }
    | .error _ => s

/-- The slot that `init` seeds: `/run/user/0`. -/
def runUser : TmpEntry := { TmpEntry.empty with kind := .dir, mode := 0o700 }

/-- At boot there is one slot in the pool, and the volume has inodes without attributes. -/
structure Init (s : State) : Prop where
  tmp : s.tmp = update (fun _ => none) 0 (some runUser)
  ino : ∀ i n, s.ino i = some n → n.xattr = none

end State

end Leandros.Xattr
