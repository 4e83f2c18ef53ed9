import Leandros.Sched.Life.Refine

/-!
# Leandros.Sched.Life.Owner

**Who ends a thread group.** `claim_group_exit` records the winner in the leader's task;
from then on the winner runs its kill loop until it is alone, or leads the group after an
exec. `Owned` is what holds of owners and their victims in every state, whether or not the
leader is still there: an owner is the only one in its group, the record names it, and
only threads with a live owner in their group are marked dead by somebody else.

It looks at five fields of a life (`Core`), so that a step is a change of one or two
entries in a table of those.
-/

namespace Leandros.Sched

open Function (update update_apply update_eq_self update_idem update_of_ne update_self)
open Life
open RunQueue
open Option (map_eq_some_iff map_map)

namespace Ctx

/-- The thread owns the exit of its group and has not finished its kill loop. -/
def owning : Ctx → Bool
  | .reparenting _ _ | .killing _ | .dethreading | .takingOver => true
  | _ => false

/-- The thread is in a loop that marks all others dead. -/
def slaying : Ctx → Bool
  | .killing _ => true
  | _ => false

/-- The thread is past its kill loop, if it had one. -/
def ended : Ctx → Bool
  | .exiting _ | .leaving _ | .left => true
  | _ => false

/-- The thread has marked itself dead. -/
def gone : Ctx → Bool
  | .leaving _ | .left => true
  | _ => false

end Ctx

/-- The fields that ownership is about. -/
@[ext]
structure Core where
  tgid : Nat
  phase : Ctx
  zombie : Bool
  owner : Nat
  killed : Bool

/-- A thread of group `g` in ordinary code. -/
def Core.fresh (g : Nat) : Core := ⟨g, .elsewhere, false, 0, false⟩

@[simps]
def Life.core (L : Life) : Core := ⟨L.tgid, L.phase, L.zombie, L.owner, L.killed⟩

def World.cores (w : World) (q : Nat) : Option Core := (w.roster q).map core

/-- Owners and their victims. -/
structure Owned (c : Nat → Option Core) : Prop where
  nonzero : ∀ {q M}, c q = some M → q ≠ 0
  /-- A task filed under the id of a group leads it. -/
  lead : ∀ {p L M}, c p = some L → c L.tgid = some M → M.tgid = L.tgid
  /-- The leader's record names the owner. -/
  holds : ∀ {p L M}, c p = some L → L.phase.owning = true → c L.tgid = some M → M.owner = p
  unique : ∀ {p q L M}, c p = some L → c q = some M → L.phase.owning = true →
    M.phase.owning = true → L.tgid = M.tgid → p = q
  /-- Whoever is on record is at work, or alone and on its way out. -/
  owner : ∀ {g M}, c g = some M → M.owner ≠ 0 → ∃ L, c M.owner = some L ∧ L.tgid = g ∧
      (L.phase.owning = true ∨ L.phase.ended = true ∧
        ∀ q N, c q = some N → N.tgid = g → q = M.owner)
  /-- A thread marked dead by another has a killer; an exec spares the leader. -/
  killed : ∀ {p L}, c p = some L → L.killed = true → ∃ x X, c x = some X ∧ X.tgid = L.tgid ∧ x ≠ p ∧
      (X.phase.slaying = true ∨ X.phase = .dethreading ∧ p ≠ L.tgid)
  alive : ∀ {p L}, c p = some L → L.phase.owning = true ∨ (∃ code, L.phase = .exiting code) →
    L.zombie = false
  dead : ∀ {p L}, c p = some L → L.zombie = true → L.phase.gone = false → L.killed = true
  alone : ∀ {p L code}, c p = some L → L.phase = .exiting code → ∀ q N, c q = some N →
    N.tgid = L.tgid → q = p

theorem update_eq_some {α : Type} {c : Nat → Option α} {p q : Nat} {X : Option α} {N : α}
    (h : update c p X q = some N) : q = p ∧ X = some N ∨ q ≠ p ∧ c q = some N := by
  rw [update_apply] at h
  split at h
  · next hq => exact .inl ⟨hq, h⟩
  · next hq => exact .inr ⟨hq, h⟩

variable {x : Ctx}

theorem Ctx.owning_of_slaying (h : x.slaying = true) : x.owning = true := by
  cases x <;> first | contradiction | rfl

variable {pid : Nat} {a : Action} {code : Int}

theorem Claims.starts {won : Ctx}
    (h : Claims pid x a code won) : x = .elsewhere ∨ ∃ signo, x = .stamped signo := by
  cases h with
  | exitGroup | dethread => exact .inl rfl
  | fatal signo => exact .inr ⟨signo, rfl⟩

theorem Claims.owning {won : Ctx} (h : Claims pid x a code won) : won.owning = true := by
  cases h <;> rfl

/-- A claim ends the group or begins an exec. -/
theorem Claims.action {won : Ctx} (h : Claims pid x a code won) :
    (∃ c, a = .exitGroup pid c ∧ ∃ c', won = .reparenting c' true) ∨
      a = .dethread pid ∧ won = .dethreading := by
  cases h with
  | exitGroup code => exact .inl ⟨code, rfl, code, rfl⟩
  | fatal signo code => exact .inl ⟨code, rfl, 128 + signo, rfl⟩
  | dethread => exact .inr ⟨rfl, rfl⟩

theorem Kills.owning {L : Life} {skip : Nat} {next : Ctx}
    (h : Kills L code skip next) : L.phase.owning = true := by
  cases h with
  | group _ hph | dethread hph => rw [hph]; rfl

namespace Owned

variable {c : Nat → Option Core}

/-- The only thread of its group. -/
def Alone (c : Nat → Option Core) (p : Nat) (L : Core) : Prop :=
  ∀ q N, c q = some N → N.tgid = L.tgid → q = p

/-- Some other thread of the group is in a kill loop that does not spare `p`. -/
def Hunted (c : Nat → Option Core) (p : Nat) (L : Core) : Prop :=
  ∃ x X, c x = some X ∧ X.tgid = L.tgid ∧ x ≠ p ∧
    (X.phase.slaying = true ∨ X.phase = .dethreading ∧ p ≠ L.tgid)

/-- What an entry may turn into without a change to the records. -/
structure Moves (c : Nat → Option Core) (p : Nat) (L L' : Core) : Prop where
  tgid : L'.tgid = L.tgid
  owner : L'.owner = L.owner
  owning : L'.phase.owning = true → L.phase.owning = true
  /-- An owner goes on, or ends alone. -/
  works : L.phase.owning = true → L'.phase.owning = true ∨ L'.phase.ended = true ∧ Alone c p L
  /-- A kill loop ends when nobody is left that it marked. -/
  kills : L.phase.slaying = true ∨ L.phase = .dethreading →
    (L.phase.slaying = true → L'.phase.slaying = true) ∧
      (L.phase = .dethreading → L'.phase = .dethreading) ∨
    ∀ q N, c q = some N → N.tgid = L.tgid → N.killed = false
  ended : L.phase.ended = true → L'.phase.ended = true
  exiting : ∀ code, L'.phase = .exiting code → Alone c p L
  killed : L'.killed = true → L.killed = true ∨ Hunted c p L
  alive : L'.phase.owning = true ∨ (∃ code, L'.phase = .exiting code) → L'.zombie = false
  dead : L'.zombie = true → L'.phase.gone = false → L'.killed = true

variable {p : Nat} {L : Core}

/-- One entry moves on. -/
theorem set (h : Owned c) {L' : Core} (hL : c p = some L) (hm : Moves c p L L') :
    Owned (update c p (some L')) := by
  -- an entry of the new table is the new one or an old one
  have back : ∀ {q N'}, update c p (some L') q = some N' →
      (q = p ∧ N' = L') ∨ (q ≠ p ∧ c q = some N') := by
    intro q N' hN
    exact (update_eq_some hN).imp_left fun hq => ⟨hq.1, (Option.some.inj hq.2).symm⟩
  have old : ∀ {q N'}, update c p (some L') q = some N' → ∃ N, c q = some N ∧
      N'.tgid = N.tgid ∧ N'.owner = N.owner ∧
      (N'.phase.owning = true → N.phase.owning = true) := by
    intro q N' hN
    rcases back hN with ⟨rfl, rfl⟩ | ⟨-, hN⟩
    · exact ⟨L, hL, hm.tgid, hm.owner, hm.owning⟩
    · exact ⟨N', hN, rfl, rfl, id⟩
  have stays : ∀ {q N}, c q = some N → q ≠ p → update c p (some L') q = some N :=
    fun hN hq => by rw [update_of_ne hq]; exact hN
  have alone : ∀ {q N}, Alone c q N → ∀ r X, update c p (some L') r = some X →
      X.tgid = N.tgid → r = q := by
    intro q N hal r X hX ht
    obtain ⟨X₀, hX₀, hxt, -⟩ := old hX
    exact hal r X₀ hX₀ (hxt.symm.trans ht)
  constructor
  · intro q M hM
    obtain ⟨N, hN, -⟩ := old hM
    exact h.nonzero hN
  · intro q N M hN hM
    obtain ⟨N₀, hN₀, ht, -⟩ := old hN
    obtain ⟨M₀, hM₀, ht', -⟩ := old hM
    rw [ht] at hM₀
    rw [ht, ht']
    exact h.lead hN₀ hM₀
  · intro q N M hN ho hM
    obtain ⟨N₀, hN₀, ht, -, hown⟩ := old hN
    obtain ⟨M₀, hM₀, -, hr, -⟩ := old hM
    rw [ht] at hM₀
    rw [hr]
    exact h.holds hN₀ (hown ho) hM₀
  · intro q r N M hN hM hno hmo ht
    obtain ⟨N₀, hN₀, hnt, -, hnown⟩ := old hN
    obtain ⟨M₀, hM₀, hmt, -, hmown⟩ := old hM
    exact h.unique hN₀ hM₀ (hnown hno) (hmown hmo) (hnt.symm.trans (ht.trans hmt))
  · intro g M hM ho
    obtain ⟨M₀, hM₀, -, hr, -⟩ := old hM
    rw [hr] at ho ⊢
    obtain ⟨N, hN, ht, hcase⟩ := h.owner hM₀ ho
    by_cases hq : M₀.owner = p
    · rw [hq] at hN hcase ⊢
      cases hL.symm.trans hN
      refine ⟨L', update_self .., hm.tgid.trans ht, ?_⟩
      rcases hcase with hcase | ⟨hcase, hal⟩
      · rcases hm.works hcase with hw | ⟨hw, hal⟩
        · exact .inl hw
        · refine .inr ⟨hw, fun q X hX hXt => ?_⟩
          exact alone hal q X hX (hXt.trans ht.symm)
      · refine .inr ⟨hm.ended hcase, fun q X hX hXt => ?_⟩
        obtain ⟨X₀, hX₀, hxt, -⟩ := old hX
        exact hal q X₀ hX₀ (hxt.symm.trans hXt)
    · refine ⟨N, stays hN hq, ht, hcase.imp_right fun hal => ⟨hal.1, fun q X hX hXt => ?_⟩⟩
      obtain ⟨X₀, hX₀, hxt, -⟩ := old hX
      exact hal.2 q X₀ hX₀ (hxt.symm.trans hXt)
  · intro q N hN hk
    obtain ⟨N₀, hN₀, hnt, -⟩ := old hN
    -- the thread was hunted before, and the hunter is still there
    have hex : Hunted c q N₀ := by
      rcases back hN with ⟨rfl, rfl⟩ | ⟨-, hN⟩
      · cases hL.symm.trans hN₀
        exact (hm.killed hk).elim (h.killed hL) id
      · cases hN.symm.trans hN₀
        exact h.killed hN hk
    obtain ⟨x, X, hX, hxt, hxq, hcase⟩ := hex
    rw [hnt]
    by_cases hx : x = p
    · subst hx
      cases hL.symm.trans hX
      have hN' : c q = some N := by
        rcases back hN with ⟨hq, -⟩ | ⟨-, hN⟩
        · exact absurd hq (Ne.symm hxq)
        · exact hN
      have hkp : L.phase.slaying = true ∨ L.phase = .dethreading :=
        hcase.imp_right And.left
      rcases hm.kills hkp with ⟨hsl, hde⟩ | hnone
      · refine ⟨x, L', update_self .., hm.tgid.trans hxt, hxq, ?_⟩
        exact hcase.imp hsl (And.imp_left hde)
      · rw [hnone q N hN' (hnt.trans hxt.symm)] at hk
        contradiction
    · exact ⟨x, X, stays hX hx, hxt, hxq, hcase⟩
  · intro q N hN hb
    rcases back hN with ⟨rfl, rfl⟩ | ⟨-, hN⟩
    · exact hm.alive hb
    · exact h.alive hN hb
  · intro q N hN hz hg
    rcases back hN with ⟨rfl, rfl⟩ | ⟨-, hN⟩
    · exact hm.dead hz hg
    · exact h.dead hN hz hg
  · intro q N code hN hp
    rcases back hN with ⟨rfl, rfl⟩ | ⟨-, hN⟩
    · rw [hm.tgid]
      exact alone (hm.exiting code hp)
    · exact alone (h.alone hN hp)

/-- Whoever marks others dead is the owner. -/
theorem exists_owner (h : Owned c) (hL : c p = some L)
    (hk : L.killed = true) : ∃ x X, c x = some X ∧ X.tgid = L.tgid ∧ x ≠ p ∧
      X.phase.owning = true ∧ (X.phase.slaying = true ∨ X.phase = .dethreading ∧ p ≠ L.tgid) := by
  obtain ⟨x, X, hX, ht, hne, hcase⟩ := h.killed hL hk
  refine ⟨x, X, hX, ht, hne, ?_, hcase⟩
  rcases hcase with hcase | ⟨hcase, -⟩
  · exact Ctx.owning_of_slaying hcase
  · rw [hcase]
    rfl

/-- What a fresh thread `n` of group `g` finds in the new table. -/
structure Joins (c c' : Nat → Option Core) (n g : Nat) : Prop where
  nonzero : n ≠ 0
  lead : ∀ {M}, c' g = some M → M.tgid = g
  /-- A group that goes by the new id is the thread's own, and nobody owns it. -/
  mates : ∀ {q N}, c' q = some N → c q = some N → N.tgid = n → g = n ∧ N.phase.owning = false
  /-- A group whose only thread has ended does not grow. -/
  grow : ∀ {r R}, c' r = some R → R.phase.ended = true → Alone c r R → R.tgid ≠ g

section

variable (h : Owned c)
include h

/-- Entries go, and at most one thread is fresh; who is on record and who hunts a thread
that is left stay. -/
theorem renew {c' : Nat → Option Core} {n g : Nat}
    (back : ∀ {q N}, c' q = some N → (q = n ∧ N = .fresh g) ∨ c q = some N)
    (hnew : c' n = some (.fresh g) → Joins c c' n g)
    (hrec : ∀ {k M N}, c' k = some M → c k = some M → M.owner ≠ 0 → c M.owner = some N →
      N.tgid = k → c' M.owner = some N)
    (hhunt : ∀ {q N x X}, c q = some N → N.killed = true → c x = some X →
      X.phase.owning = true → X.tgid = N.tgid → c' x = some X) : Owned c' := by
  -- Each of the nine facts names one, two or three threads. One that is new brings it from `hnew`, one
  -- that is old had it before.
  constructor
  · intro q M hM
    rcases back hM with ⟨rfl, rfl⟩ | hM'
    · exact (hnew hM).nonzero
    · exact h.nonzero hM'
  · intro q N M hN hM
    rcases back hN with ⟨rfl, rfl⟩ | hN'
    · exact (hnew hN).lead hM
    rcases back hM with ⟨ht, rfl⟩ | hM'
    · rw [ht] at hM ⊢
      exact ((hnew hM).mates hN hN' ht).1
    · exact h.lead hN' hM'
  · intro q N M hN ho hM
    rcases back hN with ⟨-, rfl⟩ | hN'
    · contradiction
    rcases back hM with ⟨ht, rfl⟩ | hM'
    · rw [ht] at hM
      rw [((hnew hM).mates hN hN' ht).2] at ho
      contradiction
    · exact h.holds hN' ho hM'
  · intro q r N M hN hM hno hmo ht
    rcases back hN with ⟨-, rfl⟩ | hN
    · contradiction
    rcases back hM with ⟨-, rfl⟩ | hM
    · contradiction
    exact h.unique hN hM hno hmo ht
  · intro k M hM hmo
    rcases back hM with ⟨-, rfl⟩ | hM'
    · contradiction
    obtain ⟨N, hN, ht, hcase⟩ := h.owner hM' hmo
    have hN' := hrec hM hM' hmo hN ht
    -- an owner that is alone stays alone: the new thread is in another group
    refine ⟨N, hN', ht, hcase.imp_right fun hal => ⟨hal.1, fun q X hX hXt => ?_⟩⟩
    rcases back hX with ⟨rfl, rfl⟩ | hX'
    · refine absurd (ht.trans hXt.symm) ((hnew hX).grow hN' hal.1 fun r R hR hRt => ?_)
      exact hal.2 r R hR (hRt.trans ht)
    · exact hal.2 q X hX' hXt
  · intro q N hN hk
    rcases back hN with ⟨-, rfl⟩ | hN
    · contradiction
    obtain ⟨x, X, hX, hxt, hxq, hxo, hcase⟩ := h.exists_owner hN hk
    exact ⟨x, X, hhunt hN hk hX hxo hxt, hxt, hxq, hcase⟩
  · intro q N hN hb
    rcases back hN with ⟨-, rfl⟩ | hN
    · rfl
    · exact h.alive hN hb
  · intro q N hN hz hgone
    rcases back hN with ⟨-, rfl⟩ | hN
    · contradiction
    · exact h.dead hN hz hgone
  · intro q N code hN hph r X hX ht
    rcases back hN with ⟨-, rfl⟩ | hN'
    · contradiction
    rcases back hX with ⟨rfl, rfl⟩ | hX'
    -- a thread that exits is alone in its group, so nobody joins it
    · exact absurd ht.symm ((hnew hX).grow hN (by rw [hph]; rfl) (h.alone hN' hph))
    · exact h.alone hN' hph r X hX' ht

/-- An entry goes that neither owns its group nor is on record as its owner, except with it. -/
theorem remove (hL : c p = some L)
    (hp : L.phase.owning = false) (hrec : ∀ g M, c g = some M → g ≠ p → M.owner ≠ p) :
    Owned (update c p none) := by
  have stays : ∀ {q N}, c q = some N → q ≠ p → update c p none q = some N :=
    fun hN hq => by rw [update_of_ne hq]; exact hN
  refine h.renew (n := p) (g := p) (fun hN => ?_) (fun hp => ?_) ?_ ?_
  · exact .inr ((update_eq_some hN).resolve_left fun hq => nomatch hq.2).2
  · rw [update_self] at hp
    contradiction
  · intro k M N hM' hM _ hN _
    refine stays hN (hrec k M hM ?_)
    rintro rfl
    rw [update_self] at hM'
    contradiction
  · rintro q N x X - - hX hxo -
    refine stays hX ?_
    -- the killer is an owner
    rintro rfl
    cases hL.symm.trans hX
    rw [hxo] at hp
    contradiction

variable {q : Nat} {N : Core}

/-- While an owner is not in its kill loop, no thread of its group is marked. -/
theorem not_killed (hL : c p = some L)
    (ho : L.phase.owning = true) (hs : L.phase.slaying = false) (hd : L.phase ≠ .dethreading)
    (hN : c q = some N) (ht : N.tgid = L.tgid) : N.killed = false := by
  by_contra hk
  obtain ⟨x, X, hX, hxt, -, hxo, hcase⟩ := h.exists_owner hN (by simpa using hk)
  obtain rfl := h.unique hL hX ho hxo (ht.symm.trans hxt.symm)
  cases hL.symm.trans hX
  rcases hcase with hcase | ⟨hcase, -⟩
  · rw [hs] at hcase
    contradiction
  · exact hd hcase

/-- No task is filed as a thread of a group that another thread's pid names. -/
theorem tgid_ne (hL : c p = some L) (hl : L.tgid ≠ p)
    (hN : c q = some N) : N.tgid ≠ p := by
  rintro rfl
  exact hl (h.lead hN hL)

/-- While the record is free nobody owns the group. -/
theorem none_owns {g : Nat} {M : Core} (hM : c g = some M) (ho : M.owner = 0)
    (hN : c q = some N) (ht : N.tgid = g) : N.phase.owning = false := by
  by_contra hno
  rw [← ht] at hM
  have hq := h.holds hN (by simpa using hno) hM
  rw [ho] at hq
  exact h.nonzero hN hq.symm

/-- A record that does not keep a claimant out is free. -/
theorem claim_free {M : Core} (hL : c p = some L)
    (hM : c L.tgid = some M) (hp : L.phase = .elsewhere ∨ ∃ signo, L.phase = .stamped signo)
    (ho : M.owner = 0 ∨ M.owner = p) : M.owner = 0 := by
  by_contra h0
  obtain rfl := ho.resolve_left h0
  obtain ⟨R, hR, -, hcase⟩ := h.owner hM h0
  cases hL.symm.trans hR
  rcases hp with hp | ⟨signo, hp⟩ <;> rw [hp] at hcase <;>
    rcases hcase with hcase | ⟨hcase, -⟩ <;> contradiction

end

/-- The entry of `q` after `p` has claimed the exit of group `g`. -/
def claimed (g p : Nat) (won : Ctx) (q : Nat) (N : Core) : Core :=
  { N with
    owner := if q = g then p else N.owner
    phase := if q = p then won else N.phase }

/-- A claim that finds the record free. -/
theorem claim (h : Owned c) {M : Core} {won : Ctx} (hL : c p = some L)
    (hp : L.phase.gone = false) (hM : c L.tgid = some M) (ho : M.owner = 0)
    (hw : won.owning = true) : Owned fun q => (c q).map (claimed L.tgid p won q) := by
  -- nobody owns the group, hence nobody in it is marked
  have hfree : ∀ {q N}, c q = some N → N.tgid = L.tgid → N.phase.owning = false :=
    fun hN ht => h.none_owns hM ho hN ht
  have hunk : ∀ {q N}, c q = some N → N.tgid = L.tgid → N.killed = false := by
    intro q N hN ht
    by_contra hk
    obtain ⟨x, X, hX, hxt, -, hxo, -⟩ := h.exists_owner hN (by simpa using hk)
    rw [hfree hX (hxt.trans ht)] at hxo
    contradiction
  have hex : ∀ code, won ≠ .exiting code := by
    rintro code rfl
    contradiction
  constructor <;> simp only [map_eq_some_iff]
  · rintro q _ ⟨N, hN, -⟩
    exact h.nonzero hN
  · rintro q _ _ ⟨N, hN, rfl⟩ ⟨X, hX, rfl⟩
    have ht : X.tgid = N.tgid := h.lead hN hX
    exact ht
  · rintro q _ _ ⟨N, hN, rfl⟩ hno ⟨X, hX, rfl⟩
    simp only [claimed] at hno hX ⊢
    by_cases hq : q = p
    · subst hq
      cases hL.symm.trans hN
      exact if_pos rfl
    · rw [if_neg hq] at hno
      have hne : N.tgid ≠ L.tgid := by
        intro ht
        rw [hfree hN ht] at hno
        contradiction
      exact (if_neg hne).trans (h.holds hN hno hX)
  · rintro q r _ _ ⟨N, hN, rfl⟩ ⟨X, hX, rfl⟩ hno hxo ht
    simp only [claimed] at hno hxo ht
    by_cases hq : q = p
    · subst hq
      cases hL.symm.trans hN
      by_contra hr
      rw [if_neg (Ne.symm hr), hfree hX ht.symm] at hxo
      contradiction
    rw [if_neg hq] at hno
    by_cases hr : r = p
    · subst hr
      cases hL.symm.trans hX
      rw [hfree hN ht] at hno
      contradiction
    · rw [if_neg hr] at hxo
      exact h.unique hN hX hno hxo ht
  · rintro g _ ⟨X, hX, rfl⟩ hxo
    by_cases hg : g = L.tgid
    · rw [show (claimed L.tgid p won g X).owner = p from if_pos hg]
      refine ⟨_, ⟨L, hL, rfl⟩, hg.symm, .inl ?_⟩
      simp only [claimed, if_pos]
      exact hw
    rw [show (claimed L.tgid p won g X).owner = X.owner from if_neg hg] at hxo ⊢
    obtain ⟨N, hN, ht, hcase⟩ := h.owner hX hxo
    have hne : X.owner ≠ p := by
      rintro rfl
      cases hL.symm.trans hN
      exact hg ht.symm
    refine ⟨_, ⟨N, hN, rfl⟩, ht, ?_⟩
    simp only [claimed, if_neg hne]
    refine hcase.imp_right fun hal => ⟨hal.1, ?_⟩
    rintro q _ ⟨Y, hY, rfl⟩ hyt
    exact hal.2 q Y hY hyt
  · rintro q _ ⟨N, hN, rfl⟩ hk
    obtain ⟨x, X, hX, hxt, hxq, hcase⟩ := h.killed hN hk
    have hne : x ≠ p := by
      rintro rfl
      cases hL.symm.trans hX
      have hk : N.killed = true := hk
      rw [hunk hN hxt.symm] at hk
      contradiction
    refine ⟨x, _, ⟨X, hX, rfl⟩, hxt, hxq, ?_⟩
    simp only [claimed, if_neg hne]
    exact hcase
  · rintro q _ ⟨N, hN, rfl⟩ hb
    simp only [claimed] at hb ⊢
    by_cases hq : q = p
    · subst hq
      cases hL.symm.trans hN
      by_contra hz
      have hk := h.dead hL (by simpa using hz) hp
      rw [hunk hL rfl] at hk
      contradiction
    · rw [if_neg hq] at hb
      exact h.alive hN hb
  · rintro q _ ⟨N, hN, rfl⟩ hz hg
    simp only [claimed] at hz hg ⊢
    by_cases hq : q = p
    · subst hq
      cases hL.symm.trans hN
      exact h.dead hL hz hp
    · rw [if_neg hq] at hg
      exact h.dead hN hz hg
  · rintro q _ code ⟨N, hN, rfl⟩ hph r _ ⟨X, hX, rfl⟩ ht
    simp only [claimed] at hph ht
    by_cases hq : q = p
    · rw [if_pos hq] at hph
      exact absurd hph (hex code)
    · rw [if_neg hq] at hph
      exact h.alone hN hph r X hX ht

theorem takeOver_eq_some {g q : Nat} {N : Core}
    (h : update (update c p none) g (some (.fresh g)) q = some N) :
    (q = g ∧ N = .fresh g) ∨ (q ≠ p ∧ c q = some N) := by
  rcases update_eq_some h with ⟨hq, h⟩ | ⟨-, h⟩
  · exact .inl ⟨hq, (Option.some.inj h).symm⟩
  · exact .inr ((update_eq_some h).resolve_left fun hq => nomatch hq.2)

/-- An exec is over: the caller leads its group, under its own pid or under the leader's. -/
theorem takeOver (h : Owned c) {g : Nat} (hL : c p = some L) (hp : L.phase = .takingOver)
    (hg : (g = L.tgid ∧ ∃ M, c L.tgid = some M) ∨ (g = p ∧ c L.tgid = none)) :
    Owned (update (update c p none) g (some (.fresh g))) := by
  have ho : L.phase.owning = true := by rw [hp]; rfl
  have stays : ∀ {q N}, c q = some N → q ≠ g → q ≠ p →
      update (update c p none) g (some (.fresh g)) q = some N := by
    intro q N hN hq hq'
    rw [update_of_ne hq, update_of_ne hq']
    exact hN
  -- tasks of the new group were in the old one
  have hsame : ∀ {q N}, c q = some N → N.tgid = g → g = L.tgid := by
    intro q N hN ht
    rcases hg with ⟨hg, -⟩ | ⟨hg, hnone⟩
    · exact hg
    have hl : L.tgid ≠ p := by
      intro hl
      rw [hl, hL] at hnone
      contradiction
    exact absurd (ht.trans hg) (h.tgid_ne hL hl hN)
  have hmate : ∀ {M}, c g = some M → M.tgid = L.tgid := by
    intro M hM
    rcases hg with ⟨rfl, -⟩ | ⟨rfl, -⟩
    · exact h.lead hL hM
    · rw [Option.some.inj (hL.symm.trans hM)]
  refine h.renew (fun hN => (takeOver_eq_some hN).imp_right And.right) (fun _ => ⟨?_, ?_, ?_, ?_⟩) ?_ ?_
  · rcases hg with ⟨rfl, M, hM⟩ | ⟨rfl, -⟩
    · exact h.nonzero hM
    · exact h.nonzero hL
  · intro M hM
    rw [update_self] at hM
    cases hM
    rfl
  · intro q N hN' hN ht
    refine ⟨rfl, ?_⟩
    rcases takeOver_eq_some hN' with ⟨-, rfl⟩ | ⟨hq, -⟩
    · rfl
    · by_contra hno
      exact hq (h.unique hN hL (by simpa using hno) ho (ht.trans (hsame hN ht)))
  · intro r R hR' hend hal ht
    rcases takeOver_eq_some hR' with ⟨-, rfl⟩ | ⟨hr, hR⟩
    · contradiction
    · exact hr (hal p L hL ((hsame hR ht).symm.trans ht.symm)).symm
  · intro k M N hM' hM hmo hN ht
    have hne : L.tgid ≠ k := by
      rintro rfl
      rcases hg with ⟨rfl, -⟩ | ⟨-, hnone⟩
      · rw [update_self] at hM'
        cases hM'
        contradiction
      · rw [hnone] at hM
        contradiction
    refine stays hN (fun hog => ?_) fun hop => ?_
    · rw [hog] at hN
      exact hne ((hmate hN).symm.trans ht)
    · rw [hop, hL] at hN
      exact hne (Option.some.inj hN ▸ ht)
  · intro q N x X hN hk hX hxo hxt
    -- the hunter is in another group: in this one the owner is past its loop
    have hne : N.tgid ≠ L.tgid := by
      intro ht
      have hunk := h.not_killed hL ho (by rw [hp]; rfl) (by rw [hp]; nofun) hN ht
      rw [hunk] at hk
      contradiction
    refine stays hX ?_ ?_
    · rintro rfl
      exact hne (hxt.symm.trans (hmate hX))
    · rintro rfl
      cases hL.symm.trans hX
      exact hne hxt.symm

/-- A new task, alone in its group or in that of a thread that has not ended. -/
theorem create (h : Owned c) {n g : Nat} (h0 : n ≠ 0) (hn : c n = none)
    (hfresh : ∀ q N, c q = some N → N.tgid ≠ n)
    (hg : g = n ∨ ∃ p L, c p = some L ∧ L.tgid = g ∧ L.phase.ended = false) :
    Owned (update c n (some (.fresh g))) := by
  -- the new thread is the only change
  have back : ∀ {q N}, update c n (some (.fresh g)) q = some N →
      (q = n ∧ N = .fresh g) ∨ c q = some N := by
    intro q N hN
    exact (update_eq_some hN).imp (fun hq => ⟨hq.1, (Option.some.inj hq.2).symm⟩) And.right
  have stays : ∀ {q N}, c q = some N → update c n (some (.fresh g)) q = some N := by
    intro q N hN
    rw [update_of_ne]
    · exact hN
    · rintro rfl
      rw [hn] at hN
      contradiction
  refine h.renew back (fun _ => ⟨h0, ?_, ?_, ?_⟩) (fun _ _ _ hN _ => stays hN)
    fun _ _ hX _ _ => stays hX
  · intro M hM'
    rcases back hM' with ⟨-, rfl⟩ | hM
    · rfl
    -- its group is its own, or that of a thread whose leader is found as before
    rcases hg with rfl | ⟨p, L, hL, rfl, -⟩
    · rw [hn] at hM
      contradiction
    · exact h.lead hL hM
  · intro q N _ hN ht
    exact absurd ht (hfresh q N hN)
  · -- nobody joins a group whose last thread has ended: its parent is in the group and has not
    intro r R hR' hend hal ht
    rcases back hR' with ⟨-, rfl⟩ | hR
    · contradiction
    rcases hg with rfl | ⟨p, L, hL, hlt, hlp⟩
    · exact hfresh r R hR ht
    obtain rfl := hal p L hL (hlt.trans ht.symm)
    cases hL.symm.trans hR
    rw [hend] at hlp
    contradiction

end Owned

open Owned

/-! ### Steps -/

namespace World

variable {w w' : World}

/-- The pid that a new task gets stands for nothing yet. -/
structure Fresh (w : World) : Prop where
  nonzero : w.next ≠ 0
  unused : w.roster w.next = none
  noGroup : ∀ q N, w.roster q = some N → N.tgid ≠ w.next

variable {q : Nat} {M : Life}

theorem cores_eq_some {N : Core} (h : w.cores q = some N) :
    ∃ L, w.roster q = some L ∧ L.core = N := map_eq_some_iff.mp h

variable {L : Life} {p : Nat}

theorem cores_of (h : w.roster q = some L) : w.cores q = some L.core := by
  rw [cores, h]
  rfl

theorem cores_edit (hL : w.roster p = some L) (f : Life → Life) :
    (w.edit p f).cores = update w.cores p (some (f L).core) := by
  funext q
  rw [cores, edit_roster, update_apply, hL]
  split <;> rfl

theorem cores_reap (w : World) (L : Life) (auto : Bool) :
    (w.reap L auto).cores = update w.cores L.pid none := by
  funext q
  rw [cores, reap_roster, update_apply]
  split <;> rfl

/-- A change to all that ownership does not see, and of the phase of `p`. -/
theorem cores_map_edit {w₁ : World} {f : Life → Life} {x : Ctx}
    (hw : w₁.roster = (w.map f).roster) (hL : w.roster p = some L) (hf : ∀ M, (f M).core = M.core) :
    (w₁.edit p fun L => { L with phase := x }).cores =
      update w.cores p (some { L.core with phase := x }) := by
  rw [cores_edit (by rw [hw, map_roster, hL]; rfl), ← hf L]
  congr 1
  funext q
  rw [cores, hw, map_roster, map_map, show core ∘ f = core from funext hf]
  rfl

theorem cores_enrol (w : World) (L : Life) (next : Nat) :
    { w with roster := update w.roster w.next (some L), next := next }.cores =
      update w.cores w.next (some L.core) := by
  funext q
  simp only [cores, update_apply]
  split <;> rfl

/-- A claim changes the owner in the leader's core and the phase in the claimant's. -/
theorem cores_claim {won : Ctx} (hL : w.roster p = some L)
    (hM : w.roster L.tgid = some M) :
    ((w.edit L.tgid fun M => { M with owner := p }).edit p fun L => { L with phase := won }).cores =
      fun q => (w.cores q).map (claimed L.tgid p won q) := by
  funext q
  simp only [cores, edit_roster]
  -- the claimant may be the leader itself, and then both edits are of one life
  by_cases hq : q = p
  · subst hq
    by_cases hl : q = L.tgid
    · rw [← hl, hL]
      simp [core, claimed]
    · rw [hL]
      simp [core, claimed, hl]
  rw [if_neg hq]
  by_cases hl : q = L.tgid
  · rw [hl, hM]
    simp [core, claimed, ← hl, hq]
  rw [if_neg hl]
  cases w.roster q with
  | none => rfl
  | some => simp [core, claimed, hq, hl]

/-- A step that moves one task on, in the terms of `Owned.Moves`. -/
theorem owned_edit (h : Owned w.cores) {f : Life → Life}
    (hL : w.roster p = some L) (hm : Moves w.cores p L.core (f L).core) :
    Owned (w.edit p f).cores := by
  rw [cores_edit hL]
  exact h.set (cores_of hL) hm

theorem owned_reap (h : Owned w.cores) (hk : w.Keyed) {auto : Bool}
    (hL : w.roster p = some L) (hM : M.pid = L.pid) (hp : L.phase.owning = false)
    (hrec : ∀ g N, w.cores g = some N → g ≠ p → N.owner ≠ p) : Owned (w.reap M auto).cores := by
  rw [cores_reap, hM, hk p L hL]
  exact h.remove (cores_of hL) hp hrec

/-- The changes of phase that need no more than the phases. -/
theorem moves_phase (h : Owned w.cores) {M : Core} (hL : w.roster p = some L)
    (ht : M.tgid = L.tgid) (ho : M.owner = L.owner) (hk : M.killed = L.killed)
    (hp : L.phase.owning = false) (hp' : M.phase.owning = false)
    (hend : L.phase.ended = true → M.phase.ended = true) (hex : ∀ code, M.phase ≠ .exiting code)
    (hz : M.phase.gone = true ∨ M.zombie = L.zombie ∧ L.phase.gone = false) :
    Moves w.cores p L.core M where
  tgid := ht
  owner := ho
  -- a thread that owns nothing before and after has nothing to keep as an owner
  owning := fun h' => by rw [hp'] at h'; contradiction
  works := fun h' => by
    have h' : L.phase.owning = true := h'
    rw [hp] at h'
    contradiction
  kills := fun h' => by
    have ho : L.phase.owning = true := by
      rcases h' with h' | h'
      · exact Ctx.owning_of_slaying h'
      · have h' : L.phase = .dethreading := h'
        rw [h']
        rfl
    rw [hp] at ho
    contradiction
  ended := hend
  exiting := fun code h' => absurd h' (hex code)
  killed := fun h' => .inl (hk.symm.trans h')
  alive := by
    rintro (h' | ⟨code, h'⟩)
    · rw [hp'] at h'
      contradiction
    · exact absurd h' (hex code)
  dead := fun hzm hg => by
    rcases hz with hz | ⟨hz, hlg⟩
    · rw [hz] at hg
      contradiction
    · rw [hk]
      exact h.dead (cores_of hL) (hz.symm.trans hzm) hlg

/-- Where a kill loop leaves nobody out but itself and, in an exec, the leader. -/
theorem hunted (hk : w.Keyed) {code : Int} {skip : Nat} {next : Ctx}
    (hL : w.roster p = some L) (hkl : Kills L code skip next) (hg : M.tgid = L.tgid) (hp : q ≠ p)
    (hs : q ≠ skip) : Hunted w.cores q M.core := by
  refine ⟨p, L.core, cores_of hL, hg.symm, Ne.symm hp, ?_⟩
  -- which victims a kill loop goes for depends on who runs it: an exec spares the leader
  cases hkl with
  | group code hph =>
    left
    show L.phase.slaying = true
    rw [hph]
    rfl
  | dethread hph =>
    refine .inr ⟨hph, ?_⟩
    show q ≠ M.tgid
    rw [hg]
    split at hs
    · next hl =>
      rw [← hl, hk p L hL]
      exact hp
    · exact hs

section

variable (h : Owned w.cores)
include h

variable (hL : w.roster p = some L)
include hL

/-- A victim of a kill loop is no owner, and no record names it. -/
theorem owned_victim {q : Nat} {M : Life}
    (ho : L.phase.owning = true) (hM : w.roster q = some M) (hg : M.tgid = L.tgid)
    (hp : q ≠ p) : M.phase.owning = false ∧ (∀ code, M.phase ≠ .exiting code) ∧
      ∀ g N, w.cores g = some N → N.owner ≠ q := by
  refine ⟨?_, ?_, ?_⟩
  · by_contra hmo
    exact hp (h.unique (cores_of hM) (cores_of hL) (by simpa using hmo) ho hg)
  · intro code hph
    exact hp (h.alone (cores_of hM) hph p L.core (cores_of hL) hg.symm).symm
  · rintro g N hN rfl
    obtain ⟨R, hR, ht, -⟩ := h.owner hN (h.nonzero (cores_of hM))
    obtain rfl := Option.some.inj ((cores_of hM).symm.trans hR)
    have hN : w.cores L.core.tgid = some N := by
      rw [show L.core.tgid = g from hg.symm.trans ht]
      exact hN
    exact hp (h.holds (cores_of hL) ho hN)

/-- A pass over the children moves its thread on. -/
theorem moves_pass {first more : Bool}
    {next : Bool → Ctx} (hp : Passes L first next) :
    Moves w.cores p L.core { L.core with phase := next more } := by
  cases hp with
  | group code first hph =>
    -- the winner of a group exit hands its children over before it kills anybody
    have ho : L.phase.owning = true := by rw [hph]; rfl
    have hz : L.zombie = false := h.alive (cores_of hL) (.inl ho)
    -- so it is not killing yet
    have hno : ∀ x, L.phase = x → (x.slaying = true ∨ x = .dethreading) → False := by
      rintro x hx hkl
      obtain rfl := hph.symm.trans hx
      rcases hkl with hkl | hkl <;> contradiction
    constructor
    · rfl
    · rfl
    · exact fun _ => ho
    · intro _
      left
      cases more <;> rfl
    · exact fun hkl => (hno _ rfl hkl).elim
    · intro he
      have he : L.phase.ended = true := he
      rw [hph] at he
      contradiction
    · intro c hc
      cases more <;> contradiction
    · exact .inl
    · exact fun _ => hz
    · intro hz'
      have hz' : L.zombie = true := hz'
      rw [hz] at hz'
      contradiction
  | leader first hph =>
    refine moves_phase h hL rfl rfl rfl (by rw [hph]; rfl) ?_ ?_ ?_ ?_
    · cases more <;> rfl
    · intro _
      cases more <;> rfl
    · intro code
      cases more <;> nofun
    · left
      cases more <;> rfl

variable (hph : L.phase = .takingOver)
include hph

/-- The caller of an exec is alive when it takes over. -/
theorem owned_takingOver : L.zombie = false ∧ L.killed = false := by
  have ho : L.core.phase.owning = true := by rw [core_phase, hph]; rfl
  refine ⟨h.alive (cores_of hL) (.inl ho), ?_⟩
  refine h.not_killed (cores_of hL) ho ?_ ?_ (cores_of hL) rfl <;> rw [core_phase, hph]
  · rfl
  · nofun

/-- The caller leads its group, as before or from now on. -/
theorem cores_leads {f : Life → Life}
    (hf : (f L).core = { L.core with tgid := p, owner := 0, phase := .elsewhere }) :
    (w.edit p f).cores = update (update w.cores p none) p (some (.fresh p)) := by
  obtain ⟨hz, hkd⟩ := owned_takingOver h hL hph
  rw [cores_edit hL, update_idem, hf]
  simp [Core.fresh, hz, hkd]

/-- After the exchange the leader's pid is the claimant's, and its old pid is nobody's. -/
theorem cores_exchanged {M : Life} {log : ExitLog}
    (hl : L.tgid ≠ p) :
    ({ w with
        roster := fun q =>
          if q = p then none
          else if q = L.tgid then
            some
              { L with
                pid := L.tgid
                ppid := if M.ppid = p then L.tgid else M.ppid
                pgid := M.pgid
                waitReported := M.waitReported
                owner := 0
                phase := .elsewhere }
          else (w.roster q).map fun N => if N.ppid = p then { N with ppid := L.tgid } else N
        log := log } : World).cores =
      update (update w.cores p none) L.tgid (some (.fresh L.tgid)) := by
  obtain ⟨hz, hkd⟩ := owned_takingOver h hL hph
  funext q
  simp only [cores, update_apply]
  -- the caller's pid goes, the leader's stands for a fresh task, all others keep their cores
  by_cases hq : q = p
  · subst hq
    rw [if_pos rfl, if_neg (Ne.symm hl), if_pos rfl]
    rfl
  rw [if_neg hq, if_neg hq]
  by_cases hg : q = L.tgid
  · rw [if_pos hg, if_pos hg]
    simp [core, Core.fresh, hz, hkd]
  rw [if_neg hg, if_neg hg, map_map]
  congr 1
  funext N
  simp only [Function.comp_apply]
  split <;> rfl

end

/-- Ownership holds after every step. -/
theorem Step.owned {a : Action} (hk : w.Keyed) (h : Owned w.cores)
    (hnew : a.creates = true → w.Fresh) (hs : w.Step a w') : Owned w'.cores := by
  cases hs with
  | same | refused | consumed | consumedSpilled => exact h
  | @revive _ p L ha hL =>
    refine owned_edit h hL ⟨rfl, rfl, id, .inl, fun _ => .inl ⟨id, id⟩, id, ?_, .inl, ?_, ?_⟩
    · exact fun code hph => h.alone (cores_of hL) hph
    · exact fun _ => rfl
    · nofun
  | @reapSelf p klocks L auto hL hz =>
    have hno : L.phase.owning = false := by
      by_contra ho
      have hz' : L.zombie = false := h.alive (cores_of hL) (.inl (by simpa using ho))
      rw [hz] at hz'
      contradiction
    refine owned_reap h hk hL rfl hno fun g N hN hg ho => ?_
    obtain ⟨R, hR, ht, hcase⟩ := h.owner hN (ho ▸ h.nonzero (cores_of hL))
    rw [ho] at hR hcase
    obtain rfl := Option.some.inj ((cores_of hL).symm.trans hR)
    rcases hcase with hcase | ⟨-, hal⟩
    · rw [core_phase, hno] at hcase
      contradiction
    · -- the leader is in the group too
      have hN' : w.cores L.core.tgid = some N := by rw [ht]; exact hN
      exact hg (hal g N hN ((h.lead (cores_of hL) hN').trans ht))
  | @stamp _ p signo L hL hph =>
    refine (congrArg Owned (cores_map_edit rfl hL fun M => ?_)).mpr (h.set (cores_of hL) ?_)
    · split <;> rfl
    refine moves_phase h hL rfl rfl rfl (by rw [hph]; rfl) rfl ?_ nofun ?_
    · rw [hph]
      nofun
    · exact .inr ⟨rfl, by rw [hph]; rfl⟩
  | @claimWon _ p L M code won hL hc hM ho =>
    have hph := hc.starts
    have hfree : M.owner = 0 := h.claim_free (cores_of hL) (cores_of hM) hph ho
    rw [cores_claim hL hM]
    refine h.claim (cores_of hL) ?_ (cores_of hM) hfree hc.owning
    rcases hph with hph | ⟨signo, hph⟩ <;> rw [core_phase, hph] <;> rfl
  | @claimLost _ p L code won hL hc =>
    refine owned_edit h hL (moves_phase h hL rfl rfl rfl ?_ rfl (fun _ => rfl) nofun (.inl rfl))
    rcases hc.starts with hph | ⟨signo, hph⟩ <;> rw [hph] <;> rfl
  | keepChildren hL hp => exact owned_edit h hL (moves_pass h hL hp)
  | @reparent p L first more next moved hL hp =>
    refine (congrArg Owned (cores_map_edit rfl hL fun M => ?_)).mpr
      (h.set (cores_of hL) (moves_pass h hL hp))
    split <;> rfl
  | @killMark p q klocks L M code skip next hL hkl hM hg hp hs =>
    obtain ⟨hno, hex, -⟩ := owned_victim h hL hkl.owning hM hg hp
    refine owned_edit h hM ⟨rfl, rfl, id, .inl, fun _ => .inl ⟨id, id⟩, id, ?_, ?_, ?_, ?_⟩
    · exact fun code hph => absurd hph (hex code)
    · exact fun _ => .inr (hunted hk hL hkl hg hp hs)
    · rintro (ho | ⟨code, hph⟩)
      · rw [core_phase, hno] at ho
        contradiction
      · exact absurd hph (hex code)
    · exact fun _ _ => rfl
  | @killReap p q klocks L M code skip next auto hL hkl hM hg hp =>
    obtain ⟨hno, -, hrec⟩ := owned_victim h hL hkl.owning hM hg hp
    exact owned_reap h hk hM rfl hno fun g N hN _ => hrec g N hN
  | @killDone p klocks L code skip next hL hkl hnone =>
    have ho := hkl.owning
    have hz : L.zombie = false := h.alive (cores_of hL) (.inl ho)
    have hno : ∀ hz' : L.zombie = true, False := fun hz' => by rw [hz] at hz'; contradiction
    cases hkl with
    | group =>
      have hal : Alone w.cores p L.core := by
        intro q N hN ht
        obtain ⟨M, hM, rfl⟩ := cores_eq_some hN
        exact (hnone q M hM ht).resolve_right (h.nonzero hN)
      refine owned_edit h hL ⟨rfl, rfl, nofun, fun _ => .inr ⟨rfl, hal⟩, fun _ => .inr ?_,
        fun _ => rfl, fun _ _ => hal, .inl, fun _ => hz, fun hz' => (hno hz').elim⟩
      intro q N hN ht
      by_contra hkq
      obtain ⟨x, X, hX, hxt, hxq, -⟩ := h.killed hN (by simpa using hkq)
      exact hxq ((hal x X hX (hxt.trans ht)).trans (hal q N hN ht).symm)
    | dethread hph =>
      refine owned_edit h hL ⟨rfl, rfl, fun _ => ho, fun _ => .inl rfl, fun _ => .inr ?_,
        ?_, nofun, .inl, fun _ => hz, fun hz' => (hno hz').elim⟩
      · intro q N hN ht
        by_contra hkq
        obtain ⟨x, X, hX, hxt, hxq, hxo, hcase⟩ :=
          h.exists_owner hN (by simpa using hkq)
        obtain rfl := h.unique (cores_of hL) hX ho hxo (ht.symm.trans hxt.symm)
        obtain rfl := Option.some.inj ((cores_of hL).symm.trans hX)
        obtain ⟨M, hM, rfl⟩ := cores_eq_some hN
        rcases hcase with hcase | ⟨-, hne⟩
        · rw [core_phase, hph] at hcase
          contradiction
        rcases hnone q M hM ht with hq | hq
        · exact hxq hq.symm
        · split at hq
          · exact h.nonzero hN hq
          · exact hne (hq.trans ht.symm)
      · intro he
        rw [core_phase, hph] at he
        contradiction
  | @exit p L c code hL hph =>
    refine owned_edit h hL (moves_phase h hL rfl rfl rfl ?_ ?_ ?_ ?_ ?_)
    · rcases hph with ⟨hph, -⟩ | hph <;> rw [hph] <;> rfl
    · split <;> rfl
    · intro _
      split <;> rfl
    · intro code
      split <;> nofun
    · left
      split <;> rfl
  | @execLeader p klocks L hL hph hl =>
    rw [cores_leads h hL hph (by rw [← hl]; rfl)]
    exact h.takeOver (cores_of hL) hph
      (.inl ⟨hl.symm, L.core, by rw [core_tgid, hl]; exact cores_of hL⟩)
  | @promoted p klocks L hL hph hl hnone =>
    rw [cores_leads h hL hph rfl]
    exact h.takeOver (cores_of hL) hph (.inr ⟨rfl, by rw [core_tgid, cores, hnone]; rfl⟩)
  | @exchanged p klocks L M rec hL hph hl hM =>
    rw [cores_exchanged h hL hph hl]
    exact h.takeOver (cores_of hL) hph (.inl ⟨rfl, _, cores_of hM⟩)
  | @cloned p L thread hL hph =>
    obtain ⟨h0, hnone, hgroup⟩ := hnew rfl
    have hcr := h.create (g := (w.child L thread).tgid) h0 (by rw [cores, hnone]; rfl)
      (fun q N hN => by obtain ⟨M, hM, rfl⟩ := cores_eq_some hN; exact hgroup q M hM) ?_
    · exact cores_enrol w _ _ ▸ hcr
    · cases thread with
      | false => exact .inl rfl
      | true => exact .inr ⟨p, L.core, cores_of hL, rfl, by rw [core_phase, hph]; rfl⟩
  | spawned =>
    obtain ⟨h0, hnone, hgroup⟩ := hnew rfl
    have hcr := h.create h0 (by rw [cores, hnone]; rfl)
      (fun q N hN => by obtain ⟨M, hM, rfl⟩ := cores_eq_some hN; exact hgroup q M hM)
      (.inl rfl)
    exact cores_enrol w _ _ ▸ hcr
  | @reported p q sel what L M hL hM =>
    rw [cores_edit hM]
    have hsame := update_eq_self q w.cores
    rw [cores_of hM] at hsame
    exact hsame.symm ▸ h

end World

/-! ### The scheduler -/

theorem Ctx.coarse_owning (x : Ctx) : x.coarse.owning = x.owning := by
  cases x <;> rfl

namespace Kernel

variable {k k' : Kernel}

/-- The next pid is neither 0 nor that of a task or group. -/
def freshPid (k : Kernel) : Bool :=
  k.nextPid != 0 && k.rq.slots.all fun t => t.pid != k.nextPid && t.tgid != k.nextPid

theorem freshPid_iff : k.freshPid = true ↔
    k.nextPid ≠ 0 ∧ ∀ t ∈ k.rq, t.pid ≠ k.nextPid ∧ t.tgid ≠ k.nextPid := by
  simp [freshPid, mem_slots]

/-- Any number of processes and threads, none of which has begun to end. -/
structure AtRest (k : Kernel) : Prop where
  distinct : k.rq.Distinct
  lead : ∀ t ∈ k.rq, ∀ u ∈ k.rq, u.pid = t.tgid → u.tgid = t.tgid
  nonzero : ∀ t ∈ k.rq, t.pid ≠ 0
  rest : ∀ t ∈ k.rq, t.ctx = .elsewhere ∧ t.state ≠ .zombie ∧ t.groupExitOwner = 0 ∧
    t.groupKilled = false

theorem AtRest.of_slots (hd : (k.rq.slots.map Task.pid).Nodup)
    (hl : ∀ t ∈ k.rq.slots, ∀ u ∈ k.rq.slots, u.pid = t.tgid → u.tgid = t.tgid)
    (hr : ∀ t ∈ k.rq.slots, t.pid ≠ 0 ∧ t.ctx = .elsewhere ∧ t.state ≠ .zombie ∧
      t.groupExitOwner = 0 ∧ t.groupKilled = false) : k.AtRest where
  distinct := distinct_of_slots hd
  lead := fun t ht u hu => hl t (mem_slots.mpr ht) u (mem_slots.mpr hu)
  nonzero := fun t ht => (hr t (mem_slots.mpr ht)).1
  rest := fun t ht => (hr t (mem_slots.mpr ht)).2

/-- A state in which lives can be read off and owners are in order. -/
structure Governed (k : Kernel) : Prop where
  valid : k.Valid
  owned : Owned k.world.cores

theorem Valid.roster_iff (h : k.Valid) {q : Nat} {L : Life} :
    k.world.roster q = some L ↔ ∃ t ∈ k.rq, t.pid = q ∧ t.life = L :=
  roster_eq_some h.distinct

theorem Valid.roster_of_mem (h : k.Valid) {t : Task} (ht : t ∈ k.rq) :
    k.world.roster t.pid = some t.life :=
  h.roster_iff.mpr ⟨t, ht, rfl, rfl⟩

theorem Valid.fresh (h : k.Valid) (hf : k.freshPid = true) : k.world.Fresh := by
  obtain ⟨h0, hall⟩ := freshPid_iff.mp hf
  refine ⟨h0, ?_, fun q N hN => ?_⟩
  · by_contra hne
    obtain ⟨L, hL⟩ := Option.ne_none_iff_exists'.mp hne
    obtain ⟨t, ht, hp, -⟩ := h.roster_iff.mp hL
    exact (hall t ht).1 hp
  · obtain ⟨t, ht, -, rfl⟩ := h.roster_iff.mp hN
    exact (hall t ht).2

/-- At rest nobody owns a group exit, so all groups are in order. -/
theorem AtRest.governed (h : k.AtRest) : k.Governed := by
  have hv : k.Valid := ⟨h.distinct, fun t ht _ => by rw [(h.rest t ht).1]; rfl⟩
  -- at rest no thread is in the exit code, and no leader has an owner on record
  have core : ∀ {q N}, k.world.cores q = some N → ∃ t ∈ k.rq, t.pid = q ∧
      N = ⟨t.tgid, .elsewhere, false, 0, false⟩ := by
    intro q N hN
    obtain ⟨L, hL, rfl⟩ := World.cores_eq_some hN
    obtain ⟨t, ht, hp, rfl⟩ := hv.roster_iff.mp hL
    obtain ⟨hc, hz, ho, hk⟩ := h.rest t ht
    refine ⟨t, ht, hp, ?_⟩
    simp only [Task.life, hc, ho, hk, beq_eq_false_iff_ne.mpr hz]
    rfl
  refine ⟨hv, ?_, ?_, ?_, ?_, ?_, ?_, ?_, ?_, ?_⟩
  · intro q N hN
    obtain ⟨t, ht, rfl, -⟩ := core hN
    exact h.nonzero t ht
  · intro p L M hL hM
    obtain ⟨t, ht, -, rfl⟩ := core hL
    obtain ⟨u, hu, hp, rfl⟩ := core hM
    exact h.lead t ht u hu hp
  · intro p L M hL ho
    obtain ⟨t, -, -, rfl⟩ := core hL
    contradiction
  · intro p q L M hL hM ho
    obtain ⟨t, -, -, rfl⟩ := core hL
    contradiction
  · intro g M hM ho
    obtain ⟨t, -, -, rfl⟩ := core hM
    contradiction
  · intro p L hL hk
    obtain ⟨t, -, -, rfl⟩ := core hL
    contradiction
  · intro p L hL hb
    obtain ⟨t, -, -, rfl⟩ := core hL
    rfl
  · intro p L hL hz
    obtain ⟨t, -, -, rfl⟩ := core hL
    contradiction
  · intro p L code hL hph
    obtain ⟨t, -, -, rfl⟩ := core hL
    contradiction

theorem Governed.step (h : k.Governed) {a : Action} (hf : a.creates = true → k.freshPid = true)
    (hs : k.step a = some k') : k'.Governed ∧ k.world.Step a k'.world := by
  have hnew : a.creates = true → ∀ u ∈ k.rq, u.pid ≠ k.nextPid :=
    fun ha u hu => ((freshPid_iff.mp (hf ha)).2 u hu).1
  obtain ⟨hv, hstep⟩ := refines h.valid hnew hs
  refine ⟨⟨hv, ?_⟩, hstep⟩
  exact hstep.owned (keyed_world k) h.owned fun ha => h.valid.fresh (hf ha)

/-- Init, and a process with three threads, which run. -/
def threeThreads : Kernel where
  rq :=
    { tasks := (((OrdMap.empty.insert 0 (Task.newKernel 1)).insert 1
          { Task.newKernel 5 with ppid := 1, state := .running, onCpu := some 0 }).insert 2
          { Task.newKernel 6 with tgid := 5, ppid := 5, state := .running, onCpu := some 1 }).insert 3
          { Task.newKernel 7 with tgid := 5, ppid := 5, state := .running, onCpu := some 2 }
      len := 4
      nproc := 2 }
  exitLog := .new
  initPid := 1
  nextPid := 8

theorem atRest_threeThreads : threeThreads.AtRest :=
  .of_slots (by decide +kernel) (by decide +kernel) (by decide +kernel)

/-- **The scheduler refines the model of lives.** A run of the scheduler from rest, in which no new
task gets an id in use, is a run of `World.Step`. -/
theorem runs_refine {k₀ k : Kernel} (h₀ : k₀.AtRest)
    (hr : Reachable (Eq k₀) (fun k a => a.creates = true → k.freshPid = true) step k) :
    Relation.ReflTransGen (fun w w' => ∃ a, w.Step a w') k₀.world k.world := by
  refine (hr.invariant (P := fun k => k.Governed ∧ Relation.ReflTransGen _ k₀.world k.world) ?_
    fun k a k' hk hf hs => ?_).2
  · rintro _ rfl
    exact ⟨h₀.governed, .refl⟩
  · obtain ⟨hg, hstep⟩ := hk.1.step hf hs
    exact ⟨hg, hk.2.tail ⟨a, hstep⟩⟩

/-- Thread 6 ends the group, and its kill loop has come to the leader. -/
theorem exists_killed : ∃ k, Reachable (Eq threeThreads)
    (fun k a => a.creates = true → k.freshPid = true) step k ∧ ∃ t ∈ k.rq, t.groupKilled = true := by
  have hrun : ((replay (fun k a => a.creates = true → k.freshPid = true) step threeThreads
      [.exitGroup 6 3, .reparent 6, .kill 6 fun _ => 0]).any fun k =>
        k.rq.slots.any Task.groupKilled) = true := by
    decide +kernel
  obtain ⟨k, hr, hobs⟩ := Reachable.observe rfl hrun
  obtain ⟨t, ht, hk⟩ := List.any_eq_true.mp hobs
  exact ⟨k, hr, t, mem_slots.mp ht, hk⟩

theorem runs_refine_kill : ∃ k : Kernel, (∃ t ∈ k.rq, t.groupKilled = true) ∧
    Relation.ReflTransGen (fun w w' => ∃ a, w.Step a w') threeThreads.world k.world := by
  obtain ⟨k, hr, hk⟩ := exists_killed
  exact ⟨k, hk, runs_refine atRest_threeThreads hr⟩

/-- **Nobody is killed without a killer.** A thread that was marked dead has a sibling that lives and is
still in its kill loop, or in an exec, which spares the leader. -/
theorem killed_has_killer {k₀ k : Kernel} (h₀ : k₀.AtRest)
    (hr : Reachable (Eq k₀) (fun k a => a.creates = true → k.freshPid = true) step k)
    {t : Task} (ht : t ∈ k.rq) (hk : t.groupKilled = true) :
    ∃ u ∈ k.rq, u.tgid = t.tgid ∧ u.pid ≠ t.pid ∧ u.state ≠ .zombie ∧
      (u.ctx.slaying = true ∨ u.ctx = .dethreading ∧ t.isLeader = false) := by
  have hg : k.Governed := hr.invariant (fun _ h => h ▸ h₀.governed) fun _ _ _ hk hf hs => (hk.step hf hs).1
  obtain ⟨p, X, hX, hXt, hp, hcase⟩ := hg.owned.killed (World.cores_of (hg.valid.roster_of_mem ht)) hk
  obtain ⟨L, hL, rfl⟩ := World.cores_eq_some hX
  obtain ⟨u, hu, rfl, rfl⟩ := hg.valid.roster_iff.mp hL
  have hz := hg.owned.alive hX (.inl (hcase.elim Ctx.owning_of_slaying fun h => h.1 ▸ rfl))
  refine ⟨u, hu, hXt, hp, by simpa [Task.life] using hz, hcase.imp (fun h => ?_) fun h => ⟨?_, ?_⟩⟩
  · exact (show u.ctx.coarse.slaying = u.ctx.slaying by cases u.ctx <;> rfl) ▸ h
  · have h : u.ctx.coarse = .dethreading := h.1
    cases hc : u.ctx <;> rw [hc] at h <;> first | rfl | contradiction
  · exact decide_eq_false h.2

theorem killed_has_killer_leader : ∃ k : Kernel, ∃ t ∈ k.rq, t.groupKilled = true ∧
    ∃ u ∈ k.rq, u.tgid = t.tgid ∧ u.pid ≠ t.pid ∧ u.state ≠ .zombie := by
  obtain ⟨k, hr, t, ht, hk⟩ := exists_killed
  obtain ⟨u, hu, hg, hp, hz, -⟩ := killed_has_killer atRest_threeThreads hr ht hk
  exact ⟨k, t, ht, hk, u, hu, hg, hp, hz⟩

end Kernel

end Leandros.Sched
