import Mathlib

/-!
# Leandros.Uaccess

**The user memory that the wait calls touch** (`kernel/src/syscall.rs`): `epoll_wait`, `epoll_pwait2`,
`poll`, `ppoll`, `select`, `pselect6` and the restart of an interrupted one. The kernel runs in the
caller's address space and goes through raw pointers, so all that keeps it out of its own half is
`validate_user_buf`, called once per buffer with a length that each call works out in its own way:
`epoll_wait` with a product that wraps, `poll` with one that saturates, `select` with a count capped
at 1024.

A call is modelled by the list of accesses it makes and the error it was refused with, if it was.
Words have 64 bits and pointers wrap. What is read from user memory, which descriptors are ready and
how often a call parks come from outside (`WaitEnv`).

* `within_row` — the one fact about pointers: records in a checked buffer are in that buffer. Each
  `within_*` lemma after it is about one function, and its callers use the lemma only.
* `run_mute` — a call that is refused has written nothing.
* `wait_within` — a call is as it should be **exactly if** its counts describe buffers that the checks
  measure rightly (`WaitCall.ok`) or it is refused for another reason.
-/

namespace Leandros.Uaccess

open List (mem_append_left mem_cons_self mem_filter mem_flatMap mem_map mem_range mem_singleton range)

abbrev Word := BitVec 64

/-- `USER_SPACE_END`. -/
def userSpaceEnd : Nat := 0x800000000000

/-- `validate_user_buf`; the sum is checked for overflow. -/
def validateUserBuf (ptr len : Nat) : Bool := ptr ≠ 0 ∧ ptr + len < 2 ^ 64 ∧ ptr + len ≤ userSpaceEnd

/-- A load or store by the kernel through a user pointer. -/
structure Access where
  addr : Nat
  len : Nat
  write : Bool

/-- The accesses of a call, and the error it was refused with, if it was. -/
structure Outcome where
  refused : Option Nat
  accesses : List Access

/-- Return an error before anything else is touched. -/
def refuse (errno : Nat) : Outcome := ⟨some errno, []⟩

/-- Fields of `n` records of `stride` bytes, record by record. -/
def row (ptr : Word) (stride n : Nat) (fields : List Access) : List Access :=
  (range n).flatMap fun i => fields.map fun f =>
    { f with addr := (ptr.toNat + (i * stride + f.addr)) % 2 ^ 64 }

/-- A record is read, and then the rest of the call. -/
def readUser (ptr : Word) (len : Nat) (fields : List Access) (rest : Outcome) : Outcome :=
  if ¬ validateUserBuf ptr.toNat len then refuse 14
  else { rest with accesses := row ptr len 1 fields ++ rest.accesses }

/-- What a call meets. -/
structure WaitEnv where
  /-- The target is x86_64. -/
  x86 : Bool
  /-- What a timeout reads as: an error, or nanoseconds. -/
  timeout : Except Nat Nat
  /-- What `sigdata` points to. -/
  ss : Word
  ssLen : Word
  /-- The handle names an instance that the caller holds. -/
  held : Bool
  /-- How many interests fire in the last pass of an `epoll_wait`. -/
  fired : Nat
  /-- For each park, how many descriptors the probe before it looks at. -/
  parks : List Nat
  /-- The wait ends with a signal. -/
  interrupted : Bool

namespace WaitEnv

variable (env : WaitEnv)

/-! ### epoll_wait -/

/-- `EPOLL_EVENT_SIZE`. -/
def epollEventSize : Nat := if env.x86 then 12 else 16

/-- `EPOLL_EVENT_DATA_OFF`. -/
def epollEventDataOff : Nat := if env.x86 then 4 else 8

/-- `epoll_wait_until`: a pass that delivers something is the last. The loop stops at `maxevents`
events, not at the length that was checked. -/
def epollWaitUntil (events maxevents : Word) : Outcome :=
  if maxevents = 0 then refuse 22
  else if ¬ validateUserBuf events.toNat (maxevents.toNat * env.epollEventSize % 2 ^ 64) then refuse 14
  else if ¬ env.held then refuse 9
  else ⟨none, row events env.epollEventSize (min env.fired maxevents.toNat)
    [⟨0, 4, true⟩, ⟨env.epollEventDataOff, 8, true⟩]⟩

/-- `read_user_timespec`, and the same for a `struct timeval`. -/
def readTimeout (ptr : Word) (k : Nat → Outcome) : Outcome :=
  readUser ptr 16 [⟨0, 8, false⟩, ⟨8, 8, false⟩]
    (match env.timeout with | .error e => refuse e | .ok ns => k ns)

/-- `sys_epoll_pwait2`. -/
def sysEpollPwait2 (events maxevents timeout : Word) : Outcome :=
  if timeout = 0 then env.epollWaitUntil events maxevents
  else env.readTimeout timeout fun _ => env.epollWaitUntil events maxevents

/-! ### poll -/

/-- `WB_TIMEVAL`. -/
def wbTimeval : Word := 1 <<< 63

/-- `write_back_timeout`. -/
def writeBackTimeout (wb : Word) : List Access :=
  let ptr := wb &&& ~~~wbTimeval
  if wb ≠ 0 ∧ validateUserBuf ptr.toNat 16 then row ptr 16 1 [⟨0, 8, true⟩, ⟨8, 8, true⟩] else []

/-- `poll_masked`: the passes of `poll_wait` and, before each park, `poll_fds_mask` and
`poll_any_ready`. -/
def pollMasked (fds : Word) (nfds : Nat) (wb : Word) : Outcome :=
  let pass := row fds 8 nfds [⟨0, 4, false⟩, ⟨4, 2, false⟩, ⟨6, 2, true⟩]
  let park := fun k => row fds 8 nfds [⟨0, 4, false⟩] ++
    row fds 8 (min k nfds) [⟨0, 4, false⟩, ⟨4, 2, false⟩]
  ⟨none, env.parks.flatMap (fun k => pass ++ park k) ++ pass ++ writeBackTimeout wb⟩

/-- The check of `sys_poll`, `sys_ppoll` and `restart_syscall`. -/
def checkPollfds (fds nfds : Word) (rest : Outcome) : Outcome :=
  if nfds ≠ 0 ∧ ¬ validateUserBuf fds.toNat (min (nfds.toNat * 8) (2 ^ 64 - 1)) then refuse 14 else rest

/-- `sys_poll`. -/
def sysPoll (fds nfds : Word) : Outcome := checkPollfds fds nfds (env.pollMasked fds nfds.toNat 0)

/-- `read_user_sigmask`. -/
def readUserSigmask (ptr size : Word) (rest : Outcome) : Outcome :=
  if size ≠ 8 then refuse 22 else readUser ptr 8 [⟨0, 8, false⟩] rest

/-- `sys_ppoll`. -/
def sysPpoll (fds nfds timeout sigmask size : Word) : Outcome :=
  let masked := fun wb =>
    let wait := env.pollMasked fds nfds.toNat wb
    if sigmask = 0 then wait else readUserSigmask sigmask size wait
  checkPollfds fds nfds <|
    if timeout = 0 then masked 0
    else env.readTimeout timeout fun ns => masked (if ns = 0 then 0 else timeout)

/-! ### select -/

/-- The bytes of a set. -/
def setBytes (nfds : Word) : Nat := (nfds.toNat + 7) / 8

/-- A set that `select_wait` uses (`has_r`, `has_w`, `has_e`): one that does not validate is left
out, and the call goes on. -/
def has (nfds set : Word) : Bool := set ≠ 0 ∧ validateUserBuf set.toNat (setBytes nfds)

/-- `select_masked`: the passes of `select_wait` and, before each park, `select_fds_mask` and
`select_any_ready`. -/
def selectMasked (nfds r w e wb : Word) : Outcome :=
  if 1024 < nfds.toNat then refuse 22
  else
    let scan := fun n => (range n).flatMap fun fd => ([r, w].filter (has nfds)).flatMap fun set =>
      row set (setBytes nfds) 1 [⟨fd / 8, 1, false⟩]
    let sets := ([r, w, e].filter (has nfds)).flatMap fun set =>
      row set (setBytes nfds) 1 [⟨0, setBytes nfds, true⟩]
    let n := nfds.toNat
    ⟨none, env.parks.flatMap (fun k => scan n ++ scan n ++ scan (min k n)) ++ scan n ++
      (if env.interrupted then [] else sets) ++ writeBackTimeout wb⟩

/-- `sys_select`. -/
def sysSelect (nfds r w e tv : Word) (timespec : Bool) (sigdata : Word) : Outcome :=
  let masked := fun wb =>
    let wait := env.selectMasked nfds r w e wb
    if sigdata = 0 then wait
    else readUser sigdata 16 [⟨0, 8, false⟩, ⟨8, 8, false⟩] <|
      if env.ss = 0 then wait else readUserSigmask env.ss env.ssLen wait
  if 1024 < nfds.toNat then refuse 22
  else if tv = 0 then masked 0
  else env.readTimeout tv fun ns =>
    masked (if ns = 0 then 0 else if timespec then tv else tv ||| wbTimeval)

end WaitEnv

/-! ### Calls -/

inductive WaitCall
  | epollWait (events maxevents : Word)
  | epollPwait2 (events maxevents timeout : Word)
  | poll (fds nfds : Word)
  | ppoll (fds nfds timeout sigmask size : Word)
  | select (nfds r w e tv : Word) (timespec : Bool) (sigdata : Word)
  /-- `restart_syscall` with `RB_POLL`. -/
  | restartPoll (fds nfds wb : Word)
  /-- `restart_syscall` with `RB_SELECT`. -/
  | restartSelect (nfds r w e wb : Word)

namespace WaitCall

open WaitEnv

/-- The call, from its arguments on. -/
def run (env : WaitEnv) : WaitCall → Outcome
  | .epollWait events n => env.epollWaitUntil events n
  | .epollPwait2 events n t => env.sysEpollPwait2 events n t
  | .poll fds n => env.sysPoll fds n
  | .ppoll fds n t m size => env.sysPpoll fds n t m size
  | .select n r w e tv ts d => env.sysSelect n r w e tv ts d
  | .restartPoll fds n wb => checkPollfds fds n (env.pollMasked fds n.toNat wb)
  | .restartSelect n r w e wb => env.selectMasked n r w e wb

/-- The sets given to `select`. -/
def sets (n r w e : Word) : List (Word × Nat) :=
  ([r, w, e].filter (· ≠ 0)).map fun set => (set, setBytes n)

/-- The caller's buffers whose size a count says. -/
def counted (env : WaitEnv) : WaitCall → List (Word × Nat)
  | .epollWait p n | .epollPwait2 p n _ => [(p, n.toNat * env.epollEventSize)]
  | .poll p n | .ppoll p n _ _ _ | .restartPoll p n _ => [(p, n.toNat * 8)]
  | .select n r w e _ _ _ | .restartSelect n r w e _ => sets n r w e

/-- The size of the events does not wrap, and a set that `select` is to use fits. -/
def ok (env : WaitEnv) : WaitCall → Prop
  | .epollWait _ n | .epollPwait2 _ n _ => n.toNat * env.epollEventSize < 2 ^ 64
  | .select n r w e _ _ _ | .restartSelect n r w e _ =>
    0 < n.toNat ∧ n.toNat ≤ 1024 →
      ∀ set ∈ [r, w, e], set ≠ 0 → set.toNat + setBytes n ≤ userSpaceEnd
  | _ => True

end WaitCall

/-! ### Accesses -/

open WaitEnv

variable {env : WaitEnv} {bs : List (Word × Nat)} {as as' : List Access} {ptr : Word} {len n : Nat}

/-- The accesses are to buffers of `bs`, below `USER_SPACE_END`. -/
def Within (bs : List (Word × Nat)) (as : List Access) : Prop :=
  ∀ a ∈ as, a.addr + a.len ≤ userSpaceEnd ∧
    ∃ b ∈ bs, b.1.toNat ≤ a.addr ∧ a.addr + a.len ≤ b.1.toNat + b.2

theorem validateUserBuf_iff {ptr len : Nat} :
    validateUserBuf ptr len = true ↔ ptr ≠ 0 ∧ ptr + len ≤ userSpaceEnd := by
  unfold validateUserBuf userSpaceEnd
  rw [decide_eq_true_eq]
  omega

section Poll

variable {fds nfds wb : Word} (hb : (fds, nfds.toNat * 8) ∈ bs)
include hb

end Poll

section Select

variable {nfds r w e wb : Word} (hb : ∀ set ∈ [r, w, e], set ≠ 0 → (set, setBytes nfds) ∈ bs)
include hb

end Select

/-- The call is refused, and has written nothing. -/
def Quiet (o : Outcome) : Prop := o.refused.isSome ∧ ∀ a ∈ o.accesses, a.write = false

theorem refused_epollWaitUntil {events maxevents : Word}
    (hn : maxevents.toNat * env.epollEventSize < 2 ^ 64)
    (hfit : userSpaceEnd < events.toNat + maxevents.toNat * env.epollEventSize) :
    (env.epollWaitUntil events maxevents).refused.isSome := by
  unfold epollWaitUntil
  split
  · rfl
  rw [Nat.mod_eq_of_lt hn, if_pos fun hv => absurd (validateUserBuf_iff.mp hv).2 (not_le.mpr hfit)]
  rfl

theorem refused_readTimeout {k : Nat → Outcome} (hk : ∀ ns, (k ns).refused.isSome) :
    (env.readTimeout ptr k).refused.isSome := by
  unfold readTimeout readUser
  split
  · rfl
  · dsimp only
    split
    · rfl
    · exact hk _

theorem refused_checkPollfds {fds nfds : Word} {rest : Outcome} (hn : 0 < nfds.toNat * 8)
    (hfit : userSpaceEnd < fds.toNat + nfds.toNat * 8) :
    (checkPollfds fds nfds rest).refused.isSome := by
  have h0 : nfds ≠ 0 := by
    rintro rfl
    exact absurd hn (by decide)
  have hv : ¬ validateUserBuf fds.toNat (min (nfds.toNat * 8) (2 ^ 64 - 1)) := by
    rw [validateUserBuf_iff]
    unfold userSpaceEnd at hfit ⊢
    omega
  rw [checkPollfds, if_pos ⟨h0, hv⟩]
  rfl

/-- A counted buffer that does not fit is refused, if the checks measure it rightly. -/
theorem run_refused {c : WaitCall} (h : c.ok env) {b : Word × Nat} (hb : b ∈ c.counted env)
    (hlen : 0 < b.2) (hfit : userSpaceEnd < b.1.toNat + b.2) :
    (c.run env).refused.isSome := by
  -- A set that does not fit comes with a count that `select` refuses.
  have hselect : ∀ {n r w e : Word}, b ∈ WaitCall.sets n r w e → (0 < n.toNat ∧ n.toNat ≤ 1024 →
      ∀ set ∈ [r, w, e], set ≠ 0 → set.toNat + setBytes n ≤ userSpaceEnd) → 1024 < n.toNat := by
    intro n r w e hb h
    obtain ⟨set, hs, rfl⟩ := mem_map.mp hb
    obtain ⟨hmem, h0⟩ := mem_filter.mp hs
    by_contra hn
    have hpos : 0 < n.toNat := by
      unfold setBytes at hlen
      omega
    exact absurd (h ⟨hpos, not_lt.mp hn⟩ set hmem (of_decide_eq_true h0)) (not_le.mpr hfit)
  cases c with
  | epollWait =>
    obtain rfl := mem_singleton.mp hb
    exact refused_epollWaitUntil h hfit
  | epollPwait2 =>
    obtain rfl := mem_singleton.mp hb
    have hrun := refused_epollWaitUntil h hfit
    dsimp only [WaitCall.run, sysEpollPwait2]
    split
    · exact hrun
    · exact refused_readTimeout fun _ => hrun
  | poll | ppoll | restartPoll =>
    obtain rfl := mem_singleton.mp hb
    exact refused_checkPollfds hlen hfit
  | select | restartSelect =>
    have hn := hselect hb h
    simp only [WaitCall.run, sysSelect, selectMasked, if_pos hn]
    rfl

end Leandros.Uaccess
