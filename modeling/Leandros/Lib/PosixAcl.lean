import Mathlib

/-!
# Leandros.Lib.PosixAcl

**Access control lists of POSIX 1003.1e**, over an arbitrary type of user and group ids. An `Acl`
holds the three classes of a file mode, the named users and groups and the mask that bounds them.
Its canonical order and the rule that named entries come with a mask are fields, so that an ACL
that breaks them cannot be built.

* `Acl.groupClass` — the permissions that the group bits of a mode stand for.
* `Acl.withClasses` — the ACL with other class permissions: what `chmod` and the creation of a
  file under a default ACL do to it.
* `Acl.permits` — the access check.
* `Acl.permits_le_classPerm` — the check gives nobody more than the bits of their class.
-/

namespace Leandros

/-- Read, write and execute. -/
abbrev Perm := BitVec 3

namespace Perm

/-- The permissions `q` are all among `p`. -/
def covers (p q : Perm) : Bool := p &&& q == q

theorem covers_of_and_left {p p' q : Perm} (h : covers (p &&& p') q) : covers p q := by
  revert p p' q; decide

theorem covers_of_and_right {p p' q : Perm} (h : covers (p &&& p') q) : covers p' q := by
  revert p p' q; decide

@[simp] theorem and_all (p : Perm) : p &&& 7#3 = p := by
  revert p; decide

end Perm

/-- One entry of an ACL in its canonical order. -/
inductive AclEnt (I : Type)
  | userObj (p : Perm)
  | user (id : I) (p : Perm)
  | groupObj (p : Perm)
  | group (id : I) (p : Perm)
  | mask (p : Perm)
  | other (p : Perm)
  deriving DecidableEq

/-- An entry of an ACL that gets other class permissions. -/
def AclEnt.withClasses {I : Type} (hasMask : Bool) (u g o : Perm) : AclEnt I → AclEnt I
  | .userObj _ => .userObj u
  | .user id p => .user id p
  | .groupObj p => .groupObj (if hasMask then p else g)
  | .group id p => .group id p
  | .mask _ => .mask g
  | .other _ => .other o

structure Acl (I : Type) [LT I] where
  userObj : Perm
  users : List (I × Perm)
  groupObj : Perm
  groups : List (I × Perm)
  mask : Option Perm
  other : Perm
  users_sorted : users.Pairwise (·.1 < ·.1)
  groups_sorted : groups.Pairwise (·.1 < ·.1)
  mask_of_named : users ≠ [] ∨ groups ≠ [] → mask.isSome

/-- The classes a mode has bits for. -/
inductive AclClass
  | owner
  | group
  | other

namespace Acl

variable {I : Type} [LT I]

/-! ### Entries and mode bits -/

def entries (a : Acl I) : List (AclEnt I) :=
  .userObj a.userObj :: (a.users.map (fun e => .user e.1 e.2) ++ .groupObj a.groupObj ::
    (a.groups.map (fun e => .group e.1 e.2) ++ (a.mask.map .mask).toList ++ [.other a.other]))

/-- The permissions that the group bits of the mode stand for. -/
def groupClass (a : Acl I) : Perm := a.mask.getD a.groupObj

/-- The ACL that is no more than a mode. -/
def ofClasses (u g o : Perm) : Acl I where
  userObj := u
  users := []
  groupObj := g
  groups := []
  mask := none
  other := o
  users_sorted := .nil
  groups_sorted := .nil
  mask_of_named := by simp

/-- The mask takes the group bits; without one the owning group does. -/
def withClasses (a : Acl I) (u g o : Perm) : Acl I where
  userObj := u
  users := a.users
  groupObj := if a.mask.isSome then a.groupObj else g
  groups := a.groups
  mask := a.mask.map fun _ => g
  other := o
  users_sorted := a.users_sorted
  groups_sorted := a.groups_sorted
  mask_of_named := fun h => by simpa using a.mask_of_named h

/-- The class permissions of a default ACL, cut down to the mode a file is created with. -/
def restrict (a : Acl I) (u g o : Perm) : Acl I :=
  a.withClasses (a.userObj &&& u) (a.groupClass &&& g) (a.other &&& o)

/-- Nothing but classes. -/
def IsTrivial (a : Acl I) : Prop := a.users = [] ∧ a.groups = [] ∧ a.mask = none

@[simp] theorem groupClass_withClasses (a : Acl I) (u g o : Perm) :
    (a.withClasses u g o).groupClass = g := by
  cases hm : a.mask <;> simp [groupClass, withClasses, hm]

theorem entries_withClasses (a : Acl I) (u g o : Perm) :
    (a.withClasses u g o).entries = a.entries.map (AclEnt.withClasses a.mask.isSome u g o) := by
  have hgroups (l : List (I × Perm)) : l.map (AclEnt.withClasses a.mask.isSome u g o ∘
      fun e => .group e.1 e.2) = l.map fun e => .group e.1 e.2 := List.map_congr_left fun _ _ => rfl
  have hmask : ((a.mask.map AclEnt.mask).toList.map (AclEnt.withClasses a.mask.isSome u g o) : List (AclEnt I)) =
      ((a.mask.map fun _ => g).map .mask).toList := by
    cases a.mask <;> rfl
  simp [entries, withClasses, hgroups, hmask, AclEnt.withClasses]

variable {a : Acl I}

/-- The classes are all there is to a trivial ACL. -/
theorem withClasses_of_isTrivial (h : a.IsTrivial) (u g o : Perm) :
    a.withClasses u g o = ofClasses u g o := by
  obtain ⟨_, us, _, gs, m, _, _, _, _⟩ := a
  obtain ⟨rfl, rfl, rfl⟩ := h
  rfl

/-! ### The access check -/

/-- What the mask leaves of the permissions of a named user, or of a group. -/
def masked (a : Acl I) (p : Perm) : Perm := p &&& a.mask.getD 7

/-- The group bits bound every masked entry that there is. -/
theorem groupClass_covers_masked {p want : Perm} (h : (a.masked p).covers want)
    (hp : a.mask = none → p = a.groupObj) : a.groupClass.covers want := by
  unfold groupClass
  cases hm : a.mask with
  | none =>
    rw [hp hm] at h
    exact Perm.covers_of_and_left h
  | some =>
    rw [masked, hm] at h
    exact Perm.covers_of_and_right h

variable [DecidableEq I]

/-- The group entries that count for a caller: the owning group `fgid` and the named ones. -/
def groupsOf (a : Acl I) (fgid : I) (member : I → Bool) : List (I × Perm) :=
  ((fgid, a.groupObj) :: a.groups).filter (member ·.1)

/-- **The access check** of a caller `uid` who is a member of the groups `member`, on a file of
`fuid` and `fgid`. The first of owner, named users, groups and others that has the caller decides;
of the groups any will do. -/
def permits (a : Acl I) (fuid fgid uid : I) (member : I → Bool) (want : Perm) : Bool :=
  if uid = fuid then a.userObj.covers want
  else match a.users.find? (·.1 = uid) with
    | some e => (a.masked e.2).covers want
    | none =>
      if a.groupsOf fgid member = [] then a.other.covers want
      else (a.groupsOf fgid member).any fun e => (a.masked e.2).covers want

/-- The class of a caller: the owner, whoever an entry names or who is in the owning group,
everyone else. -/
def classOf (a : Acl I) (fuid fgid uid : I) (member : I → Bool) : AclClass :=
  if uid = fuid then .owner
  else if (a.users.any (·.1 = uid)) || member fgid || (a.groups.any (member ·.1)) then .group
  else .other

def classPerm (a : Acl I) : AclClass → Perm
  | .owner => a.userObj
  | .group => a.groupClass
  | .other => a.other

/-- **A check that passes asks for no more than the bits of the caller's class.** -/
theorem permits_le_classPerm {fuid fgid uid : I} {member : I → Bool} {want : Perm}
    (h : a.permits fuid fgid uid member want) :
    (a.classPerm (a.classOf fuid fgid uid member)).covers want := by
  unfold permits at h
  unfold classOf
  split at h
  · next hu =>
    rw [if_pos hu]
    exact h
  · next hu =>
    rw [if_neg hu]
    split at h
    · next e he =>
      -- a named user: there are named entries, hence a mask
      have hmem := List.mem_of_find?_eq_some he
      have hany : a.users.any (·.1 = uid) = true :=
        List.any_eq_true.mpr ⟨e, hmem, by simpa using List.find?_some he⟩
      rw [hany]
      refine groupClass_covers_masked h fun hm => ?_
      have hsome := a.mask_of_named (.inl (List.ne_nil_of_mem hmem))
      simp [hm] at hsome
    · next he =>
      split at h
      · next hg =>
        have hnone : a.users.any (·.1 = uid) = false := by
          simpa [List.find?_eq_none] using he
        have hg' := List.filter_eq_nil_iff.mp hg
        have hown : member fgid = false := by
          simpa using hg' _ List.mem_cons_self
        have hnamed : a.groups.any (member ·.1) = false :=
          List.any_eq_false.mpr fun e hmem => by simpa using hg' e (List.mem_cons_of_mem _ hmem)
        rw [hnone, hown, hnamed]
        exact h
      · obtain ⟨e, hmem, hcov⟩ := List.any_eq_true.mp h
        obtain ⟨hmem, hin⟩ := List.mem_filter.mp hmem
        rcases List.mem_cons.mp hmem with rfl | hmem
        · rw [hin, Bool.or_true]
          exact groupClass_covers_masked hcov fun _ => rfl
        have hany : a.groups.any (member ·.1) = true := List.any_eq_true.mpr ⟨e, hmem, hin⟩
        rw [hany, Bool.or_true]
        refine groupClass_covers_masked hcov fun hm => ?_
        have hsome := a.mask_of_named (.inr (List.ne_nil_of_mem hmem))
        simp [hm] at hsome

/-- A check against the classes alone. -/
theorem permits_ofClasses (u g o : Perm) (fuid fgid uid : I) (member : I → Bool) (want : Perm) :
    (ofClasses u g o : Acl I).permits fuid fgid uid member want =
      (if uid = fuid then u else if member fgid then g else o).covers want := by
  unfold permits
  split
  · rfl
  · cases hm : member fgid
    · simp [ofClasses, groupsOf, hm]
    · simp [ofClasses, groupsOf, masked, hm]

end Acl

end Leandros
