import Leandros.Sched.Ksync.Model

/-!
# Leandros.Sched.Ksync.Linked

**Who waits for a lock.** The nodes in the wait lists are those of the contexts that wait and
have not been granted the lock; whoever was granted it is among the holders.

`Linked` relates three things: the locks with their lists, the ledgers, and where each context is.
A waiter goes through stages (`prepare`, `commit`, `cancel`, `leave`), and only inside of them it
has a node; a spinning waiter skips those that park it. The result with which it leaves says
whether it was granted the lock, so no grant is lost and none is used twice.

`Kept` is what a step leaves of the waits of the others, and `Queued` what an insertion makes of
a list: the new node at its place by class, and the others in their order.
-/

namespace Leandros.Sched

open Function (update update_apply update_of_ne update_self)
open Place
open WaitList
open List (map_append map_cons map_map mem_append mem_cons mem_filter mem_map)

/-- The stage of a waiter whose node is in a list, unless it was granted. -/
def ParkStage.inside : ParkStage → Bool
  | .prepare | .check | .commit => true
  | _ => false

namespace Ksync

/-- Waits and the nodes in the lists. -/
structure Linked (lock : Nat → Lock) (ledger : Nat → Ledger) (place : Context → Place) : Prop where
  nodup : ∀ n, ((lock n).waiters.map WaitNode.who).Nodup
  node : ∀ {n x}, x ∈ (lock n).waiters → ∃ w, place x.who = .waiting w ∧ w.lock = n ∧
    w.kind = x.kind ∧ w.spin = x.spin ∧ x.pid = x.who.pid ∧ w.granted = false ∧
    w.stage.inside = true
  wait : ∀ {c w}, place c = .waiting w → w.granted = false → w.stage.inside = true →
    c ∈ (lock w.lock).waiters.map WaitNode.who
  result : ∀ {c w r}, place c = .waiting w → w.stage = .cancel r ∨ w.stage = .leave r →
    w.granted = r
  sleeps : ∀ {c w}, place c = .waiting w → w.spin = false → c.canSleep = true
  spins : ∀ {c w}, place c = .waiting w → w.spin = true → w.stage ≠ .prepare ∧ w.stage ≠ .commit
  granted : ∀ {c w}, place c = .waiting w → w.granted = true → (c, w.kind) ∈ (ledger w.lock).holders
  /-- A unit of a semaphore that was granted is held by a waiter on its way out. -/
  units : ∀ {n q e}, lock n = .sema q → e ∈ (ledger n).holders → e.2 = .plain ∧
    ∃ w, place e.1 = .waiting w ∧ w.lock = n ∧ w.granted = true
  once : ∀ {n q}, lock n = .sema q → (ledger n).holders.Nodup

theorem update_place {place : Context → Place} {who c : Context} {p q : Place}
    (h : update place who p c = q) : c = who ∧ p = q ∨ c ≠ who ∧ place c = q := by
  rw [update_apply] at h
  split at h
  · next hc => exact .inl ⟨hc, h⟩
  · next hc => exact .inr ⟨hc, h⟩

namespace Linked

variable {lock lock' : Nat → Lock} {ledger ledger' : Nat → Ledger} {place place' : Context → Place}

/-- What is kept of one wait. -/
structure Kept (lock : Nat → Lock) (ledger : Nat → Ledger) (c : Context) (w : Wait) : Prop where
  wait : w.granted = false → w.stage.inside = true → c ∈ (lock w.lock).waiters.map WaitNode.who
  result : ∀ {r}, w.stage = .cancel r ∨ w.stage = .leave r → w.granted = r
  sleeps : w.spin = false → c.canSleep = true
  spins : w.spin = true → w.stage ≠ .prepare ∧ w.stage ≠ .commit
  granted : w.granted = true → (c, w.kind) ∈ (ledger w.lock).holders

theorem Kept.mono {c : Context} {w : Wait} (h : Kept lock ledger c w)
    (hl : c ∈ (lock w.lock).waiters.map WaitNode.who → c ∈ (lock' w.lock).waiters.map WaitNode.who)
    (hg : (c, w.kind) ∈ (ledger w.lock).holders → (c, w.kind) ∈ (ledger' w.lock).holders) :
    Kept lock' ledger' c w :=
  ⟨fun hgr hi => hl (h.wait hgr hi), h.result, h.sleeps, h.spins, fun hgr => hg (h.granted hgr)⟩

theorem kept (h : Linked lock ledger place) {c : Context} {w : Wait} (hc : place c = .waiting w) :
    Kept lock ledger c w :=
  ⟨h.wait hc, h.result hc, h.sleeps hc, h.spins hc, h.granted hc⟩

theorem of_kept (hnd : ∀ n, ((lock n).waiters.map WaitNode.who).Nodup)
    (hnode : ∀ n x, x ∈ (lock n).waiters → ∃ w, place x.who = .waiting w ∧ w.lock = n ∧
      w.kind = x.kind ∧ w.spin = x.spin ∧ x.pid = x.who.pid ∧ w.granted = false ∧
      w.stage.inside = true) (hk : ∀ c w, place c = .waiting w → Kept lock ledger c w)
    (hu : ∀ n q e, lock n = .sema q → e ∈ (ledger n).holders → e.2 = .plain ∧
      ∃ w, place e.1 = .waiting w ∧ w.lock = n ∧ w.granted = true)
    (ho : ∀ n q, lock n = .sema q → (ledger n).holders.Nodup) : Linked lock ledger place :=
  ⟨hnd, hnode _ _, fun hc => (hk _ _ hc).wait, fun hc => (hk _ _ hc).result,
    fun hc => (hk _ _ hc).sleeps, fun hc => (hk _ _ hc).spins, fun hc => (hk _ _ hc).granted,
    hu _ _ _, ho _ _⟩

/-- A step in which nobody starts or ends a wait. -/
theorem frame (h : Linked lock ledger place) (hw : ∀ n, (lock' n).waiters = (lock n).waiters)
    (hp : ∀ c w, place' c = .waiting w ↔ place c = .waiting w)
    (hg : ∀ c w, place c = .waiting w → (c, w.kind) ∈ (ledger w.lock).holders →
      (c, w.kind) ∈ (ledger' w.lock).holders) (hs : ∀ n q', lock' n = .sema q' →
      (∃ q, lock n = .sema q) ∧ (ledger' n).holders = (ledger n).holders) :
    Linked lock' ledger' place' := by
  refine .of_kept (fun n => hw n ▸ h.nodup n) (fun n x hx => ?_) (fun c w hc => ?_)
    (fun n q e hn he => ?_) fun n q hn => ?_
  · obtain ⟨w, hwait, hrest⟩ := h.node (hw n ▸ hx)
    exact ⟨w, (hp _ _).mpr hwait, hrest⟩
  · have hc := (hp _ _).mp hc
    exact (h.kept hc).mono (by rw [hw]; exact id) (hg c w hc)
  · obtain ⟨⟨q', hq'⟩, hsame⟩ := hs n q hn
    obtain ⟨hk, w, hwait, hrest⟩ := h.units hq' (hsame ▸ he)
    exact ⟨hk, w, (hp _ _).mpr hwait, hrest⟩
  · obtain ⟨⟨q', hq'⟩, hsame⟩ := hs n q hn
    exact hsame ▸ h.once hq'

variable {who c : Context} {p : Place} {n : Nat} {l : Lock} {w : Wait} {nodes : List WaitNode}

section

variable (h : Linked lock ledger place)
include h

/-- A context that does not wait goes to another place where it does not. -/
theorem goTo (h0 : ∀ w, place who ≠ .waiting w) (hp : ∀ w, p ≠ .waiting w) :
    Linked lock ledger (update place who p) := by
  refine h.frame (fun _ => rfl) (fun c w => ?_) (fun _ _ _ => id) fun n q hq => ⟨⟨q, hq⟩, rfl⟩
  constructor
  · intro hc
    rcases update_place hc with ⟨-, hc⟩ | ⟨-, hc⟩
    · exact absurd hc (hp w)
    · exact hc
  · intro hc
    rw [update_of_ne]
    · exact hc
    · rintro rfl
      exact h0 w hc

/-- A lock changes hands without its list. -/
theorem relock {g : Ledger} (hl : l.waiters = (lock n).waiters)
    (hg : ∀ c w, place c = .waiting w → (c, w.kind) ∈ (ledger n).holders → (c, w.kind) ∈ g.holders)
    (hs : ∀ q', l = .sema q' → (∃ q, lock n = .sema q) ∧ g.holders = (ledger n).holders) :
    Linked (update lock n l) (update ledger n g) place := by
  -- the lock is replaced by one with the same wait list
  refine h.frame (fun m => ?_) (fun _ _ => Iff.rfl) (fun c w hc hm => ?_) fun m q hq => ?_
  · rw [update_apply]
    split
    · next hm => rw [hm, hl]
    · rfl
  · rw [update_apply]
    split
    · next hw => exact hg c w hc (hw ▸ hm)
    · exact hm
  · rw [update_apply] at hq ⊢
    split at hq
    · next hm =>
      subst hm
      rw [if_pos rfl]
      exact hs q hq
    · next hm =>
      rw [if_neg hm]
      exact ⟨⟨q, hq⟩, rfl⟩

/-- An idle context lets go of a mutex or a reader/writer lock. -/
theorem drop {k : WaitKind} (h0 : place who = .idle) (hn : ∀ q, lock n ≠ .sema q) :
    Linked lock (update ledger n (drop who k (ledger n))) place := by
  refine h.frame (fun _ => rfl) (fun _ _ => Iff.rfl) (fun c w hc hm => ?_) fun m q hq => ?_
  · rw [update_apply]
    split
    · next hw =>
      refine (List.mem_erase_of_ne ?_).mpr (hw ▸ hm)
      rintro he
      rw [(Prod.mk.inj he).1, h0] at hc
      nomatch hc
    · exact hm
  · refine ⟨⟨q, hq⟩, ?_⟩
    rw [update_of_ne]
    rintro rfl
    exact hn q hq

/-- A waiter goes on to another stage. -/
theorem stage {st : ParkStage}
    (hc : place c = .waiting w) (hin : w.granted = false → st.inside = w.stage.inside)
    (hres : ∀ r, st = .cancel r ∨ st = .leave r → w.granted = r)
    (hsp : w.spin = true → st ≠ .prepare ∧ st ≠ .commit) :
    Linked lock ledger (update place c (.waiting { w with stage := st })) := by
  refine .of_kept h.nodup (fun n x hx => ?_) (fun d v hv => ?_) (fun n q e hn he => ?_)
    fun n q => h.once
  -- a node of `c` is where `c` still waits
  · obtain ⟨v, hv, hn, hk, hs, hp, hg, hi⟩ := h.node hx
    by_cases hxc : x.who = c
    · rw [hxc] at hv
      obtain rfl := waiting.inj (hc.symm.trans hv)
      refine ⟨{ w with stage := st }, ?_, hn, hk, hs, hp, hg, (hin hg).trans hi⟩
      rw [hxc, update_self]
    · exact ⟨v, by rw [update_of_ne hxc, hv], hn, hk, hs, hp, hg, hi⟩
  · rcases update_place hv with ⟨rfl, hv'⟩ | ⟨-, hv'⟩
    · obtain rfl := waiting.inj hv'
      -- `c` itself: what it is told may change, that it waits may not
      have hk := h.kept hc
      exact ⟨fun hg hi => hk.wait hg ((hin hg).symm.trans hi), hres _, hk.sleeps, hsp, hk.granted⟩
    · exact h.kept hv'
  · obtain ⟨hk, v, hv, hl, hg⟩ := h.units hn he
    refine ⟨hk, ?_⟩
    by_cases hec : e.1 = c
    · rw [hec] at hv ⊢
      obtain rfl := waiting.inj (hc.symm.trans hv)
      exact ⟨_, update_self _ _ _, hl, hg⟩
    · exact ⟨v, by rw [update_of_ne hec, hv], hl, hg⟩

end

theorem sema_of_update (hs : ∀ q', l = .sema q' → ∃ q, lock n = .sema q) {m : Nat}
    {q : KSemaphore} (hm : update lock n l m = .sema q) : ∃ q, lock m = .sema q := by
  rw [update_apply] at hm
  split at hm
  · next hmn => exact hmn ▸ hs q hm
  · exact ⟨q, hm⟩

/-- What queueing does to a list: one more node, the others in their places. -/
structure Queued (l l' : List WaitNode) (x : WaitNode) : Prop where
  perm : (l'.map WaitNode.who).Perm (x.who :: l.map WaitNode.who)
  node : ∀ y ∈ l', (y.who = x.who ∧ y.kind = x.kind ∧ y.spin = x.spin ∧ y.pid = x.pid) ∨
    ∃ z ∈ l, y.who = z.who ∧ y.kind = z.kind ∧ y.spin = z.spin ∧ y.pid = z.pid

theorem queued_pushBack (l : List WaitNode) (x : WaitNode) : Queued l (pushBack l x) x := by
  refine ⟨?_, fun y hy => ?_⟩
  · rw [pushBack, map_append]
    exact List.perm_append_singleton _ _
  rcases mem_append.mp hy with hy | hy
  · exact .inr ⟨y, hy, rfl, rfl, rfl, rfl⟩
  · rw [List.mem_singleton.mp hy]
    exact .inl ⟨rfl, rfl, rfl, rfl⟩

theorem bypass_same (x : WaitNode) : x.bypass.who = x.who ∧ x.bypass.kind = x.kind ∧
    x.bypass.spin = x.spin ∧ x.bypass.pid = x.pid := by
  unfold WaitNode.bypass
  split <;> exact ⟨rfl, rfl, rfl, rfl⟩

theorem queued_insertAhead (l : List WaitNode) (x : WaitNode) (maxBypass : Nat) :
    Queued l (insertAhead x maxBypass l) x := by
  induction l with
  | nil => exact queued_pushBack [] x
  | cons p l ih =>
    unfold insertAhead
    split
    · -- the new node goes in front, and the overtaken ones only count the bypass
      refine ⟨?_, fun y hy => ?_⟩
      · rw [map_cons, map_map]
        have hsame : ∀ a ∈ p :: l, (WaitNode.who ∘ WaitNode.bypass) a = a.who :=
          fun a _ => (bypass_same a).1
        rw [List.map_congr_left hsame]
      · rcases mem_cons.mp hy with rfl | hy
        · exact .inl ⟨rfl, rfl, rfl, rfl⟩
        · obtain ⟨z, hz, rfl⟩ := mem_map.mp hy
          exact .inr ⟨z, hz, bypass_same z⟩
    · -- it stays behind `p`
      refine ⟨?_, fun y hy => ?_⟩
      · exact (ih.perm.cons p.who).trans (List.Perm.swap _ _ _)
      rcases mem_cons.mp hy with rfl | hy
      · exact .inr ⟨y, .head l, rfl, rfl, rfl, rfl⟩
      · rcases ih.node y hy with hx | ⟨z, hz, hsame⟩
        · exact .inl hx
        · exact .inr ⟨z, .tail p hz, hsame⟩

theorem queued_insertClassed (l : List WaitNode) (x : WaitNode) (maxBypass : Nat) :
    Queued l (insertClassed l x maxBypass) x := by
  unfold insertClassed
  split
  · exact queued_pushBack l x
  · exact queued_insertAhead l x maxBypass

/-- A context starts to wait. -/
theorem enqueue (h : Linked lock ledger place) {x : WaitNode}
    (h0 : ∀ w, place who ≠ .waiting w) (hq : Queued (lock n).waiters l.waiters x)
    (hwho : x.who = who) (hpid : x.pid = who.pid)
    (hw : w.lock = n ∧ w.kind = x.kind ∧ w.spin = x.spin ∧ w.granted = false ∧
      (w.spin = false ∧ w.stage = .prepare ∨ w.stage = .check))
    (hsl : w.spin = false → who.canSleep = true) (hs : ∀ q', l = .sema q' → ∃ q, lock n = .sema q) :
    Linked (update lock n l) ledger (update place who (.waiting w)) := by
  obtain ⟨hwl, hwk, hws, hwg, hst⟩ := hw
  have hin : w.stage.inside = true := by
    rcases hst with ⟨-, hst⟩ | hst <;> rw [hst] <;> rfl
  have hlist : ∀ {m}, m ≠ n → update lock n l m = lock m :=
    fun hm => update_of_ne hm _ _
  refine .of_kept (fun m => ?_) (fun m y hy => ?_) (fun c v hv => ?_) (fun m q e hm he => ?_)
    fun m q hm => ?_
  · by_cases hm : m = n
    · subst hm
      rw [update_self, hq.perm.nodup_iff, List.nodup_cons, hwho]
      refine ⟨fun hc => ?_, h.nodup m⟩
      -- nobody who does not wait has a node
      obtain ⟨y, hy, hyw⟩ := mem_map.mp hc
      obtain ⟨v, hv, -⟩ := h.node hy
      exact h0 v (hyw ▸ hv)
    · rw [hlist hm]
      exact h.nodup m
  · have old : ∀ {z : WaitNode}, z ∈ (lock m).waiters → y.who = z.who ∧ y.kind = z.kind ∧
        y.spin = z.spin ∧ y.pid = z.pid → ∃ v, update place who (.waiting w) y.who =
          .waiting v ∧ v.lock = m ∧ v.kind = y.kind ∧ v.spin = y.spin ∧ y.pid = y.who.pid ∧
          v.granted = false ∧ v.stage.inside = true := by
      rintro z hz ⟨hyw, hyk, hys, hyp⟩
      obtain ⟨v, hv, hrest⟩ := h.node hz
      refine ⟨v, ?_, ?_⟩
      · rw [hyw, update_of_ne, hv]
        intro he
        exact h0 v (he ▸ hv)
      · rw [hyk, hys, hyp, hyw]
        exact hrest
    by_cases hm : m = n
    · subst hm
      rw [update_self] at hy
      rcases hq.node y hy with ⟨hyw, hyk, hys, hyp⟩ | ⟨z, hz, hsame⟩
      · refine ⟨w, ?_, hwl, hwk.trans hyk.symm, hws.trans hys.symm, ?_, hwg, hin⟩
        · rw [hyw, hwho, update_self]
        · rw [hyp, hpid, hyw, hwho]
      · exact old hz hsame
    · rw [hlist hm] at hy
      exact old hy ⟨rfl, rfl, rfl, rfl⟩
  · rcases update_place hv with ⟨rfl, hv'⟩ | ⟨-, hv'⟩
    · obtain rfl := waiting.inj hv'
      refine ⟨fun _ _ => ?_, fun hr => ?_, hsl, fun hsp => ?_, fun hg => ?_⟩
      · rw [hwl, update_self, hq.perm.mem_iff, hwho]
        exact .head _
      · rcases hst with ⟨-, hst⟩ | hst <;> rw [hst] at hr <;> simp at hr
      · rcases hst with ⟨hns, -⟩ | hst
        · rw [hns] at hsp
          contradiction
        · rw [hst]
          exact ⟨nofun, nofun⟩
      · rw [hwg] at hg
        contradiction
    · refine (h.kept hv').mono (fun hm => ?_) id
      by_cases hvn : v.lock = n
      · rw [hvn, update_self, hq.perm.mem_iff]
        exact .tail _ (hvn ▸ hm)
      · rw [hlist hvn]
        exact hm
  · obtain ⟨q₀, hq₀⟩ := sema_of_update hs hm
    obtain ⟨hk, v, hv, hrest⟩ := h.units hq₀ he
    refine ⟨hk, v, ?_, hrest⟩
    rw [update_of_ne, hv]
    intro hc
    exact h0 v (hc ▸ hv)
  · obtain ⟨q₀, hq₀⟩ := sema_of_update hs hm
    exact h.once hq₀

/-- The wait of a granted node. -/
def given (p : Place) : Place :=
  match p with
  | .waiting w => .waiting { w with granted := true }
  | p => p

theorem grantAll_apply (nodes : List WaitNode) (place : Context → Place) (c : Context) :
    grantAll place nodes c = if c ∈ nodes.map WaitNode.who then given (place c) else place c := by
  induction nodes generalizing place with
  | nil => rfl
  | cons x nodes ih =>
    have hstep : grantAll place (x :: nodes) = grantAll (grant place x.who) nodes := rfl
    have hgiven : given (given (place c)) = given (place c) := by
      cases place c <;> rfl
    have hgrant : grant place x.who c = if c = x.who then given (place c) else place c := by
      unfold grant
      rw [update_apply]
      split
      · next hc =>
        subst hc
        rfl
      · rfl
    rw [hstep, ih, hgrant]
    -- a node granted twice is granted
    by_cases hx : c = x.who
    · rw [if_pos hx, hgiven, ite_self, if_pos (hx ▸ .head _)]
    · rw [if_neg hx]
      refine if_congr ⟨.tail _, fun hm => ?_⟩ rfl rfl
      exact (mem_cons.mp hm).resolve_left hx

/-- The places after a hand-over. -/
theorem handed (hp : ∀ w, p ≠ .waiting w)
    {v : Wait} (hv : update (grantAll place nodes) who p c = .waiting v) :
    c ≠ who ∧ ∃ w, place c = .waiting w ∧
      (c ∈ nodes.map WaitNode.who ∧ v = { w with granted := true } ∨
        c ∉ nodes.map WaitNode.who ∧ v = w) := by
  rcases update_place hv with ⟨-, hv'⟩ | ⟨hne, hv'⟩
  · exact absurd hv' (hp v)
  refine ⟨hne, ?_⟩
  rw [grantAll_apply] at hv'
  -- a context was waiting and may have been granted the lock; nothing else became of it
  split at hv'
  · next hm =>
    cases hc : place c with
    | waiting w =>
      rw [hc] at hv'
      exact ⟨w, rfl, .inl ⟨hm, (waiting.inj hv').symm⟩⟩
    | _ =>
      rw [hc] at hv'
      nomatch hv'
  · next hm => exact ⟨v, hv', .inr ⟨hm, rfl⟩⟩

theorem handed_of (hne : c ≠ who) (hc : place c = .waiting w) :
    update (grantAll place nodes) who p c =
      .waiting { w with granted := decide (c ∈ nodes.map WaitNode.who) || w.granted } := by
  rw [update_of_ne hne, grantAll_apply, hc]
  split
  · next hm => simp only [given, decide_eq_true hm, Bool.true_or]
  · next hm => simp only [decide_eq_false hm, Bool.false_or]

variable (h : Linked lock ledger place)
include h

/-- The nodes at the front of a list are granted. -/
theorem handOver {g : Ledger} (h0 : ∀ w, place who ≠ .waiting w)
    (hp : ∀ w, p ≠ .waiting w) (hl : (lock n).waiters = nodes ++ l.waiters)
    (hg : g.holders = nodes.map (fun x => (x.who, x.kind)) ++ (ledger n).holders)
    (hs : ∀ q', l = .sema q' → (∃ q, lock n = .sema q) ∧ ∀ x ∈ nodes, x.kind = .plain) :
    Linked (update lock n l) (update ledger n g) (update (grantAll place nodes) who p) := by
  have hmine : ∀ {x}, x ∈ nodes → x ∈ (lock n).waiters :=
    fun hx => hl ▸ List.mem_append_left _ hx
  have hnd : (nodes.map WaitNode.who).Nodup ∧ (l.waiters.map WaitNode.who).Nodup ∧
      (nodes.map WaitNode.who).Disjoint (l.waiters.map WaitNode.who) := by
    have hall := h.nodup n
    rw [hl, map_append, List.nodup_append'] at hall
    exact hall
  have hlist : ∀ {m x}, x ∈ (update lock n l m).waiters →
      x ∈ (lock m).waiters ∧ x.who ∉ nodes.map WaitNode.who := by
    intro m x hx
    rw [update_apply] at hx
    split at hx
    · next hm =>
      subst hm
      refine ⟨hl ▸ List.mem_append_right _ hx, fun hc => ?_⟩
      exact hnd.2.2 hc (List.mem_map_of_mem hx)
    · next hm =>
      refine ⟨hx, fun hc => ?_⟩
      obtain ⟨y, hy, hyx⟩ := mem_map.mp hc
      obtain ⟨w, hw, hwl, -⟩ := h.node (hmine hy)
      obtain ⟨w', hw', hwl', -⟩ := h.node hx
      rw [hyx, hw'] at hw
      obtain rfl := waiting.inj hw
      exact hm (hwl'.symm.trans hwl)
  have hstay : ∀ {c w}, place c = .waiting w → c ≠ who := fun hc he => h0 _ (he ▸ hc)
  have hhold : ∀ {m e}, e ∈ (ledger m).holders → e ∈ (update ledger n g m).holders := by
    intro m e he
    rw [update_apply]
    split
    · next hm =>
      rw [hg]
      exact List.mem_append_right _ (hm ▸ he)
    · exact he
  refine .of_kept (fun m => ?_) (fun m x hx => ?_) (fun c v hv => ?_) (fun m q e hm he => ?_)
    fun m q hm => ?_
  · by_cases hm : m = n
    · subst hm
      rw [update_self]
      exact hnd.2.1
    · rw [update_of_ne hm]
      exact h.nodup m
  · obtain ⟨hx', hnot⟩ := hlist hx
    obtain ⟨w, hw, hrest⟩ := h.node hx'
    refine ⟨w, ?_, hrest⟩
    rw [handed_of (hstay hw) hw, decide_eq_false hnot, Bool.false_or]
  · obtain ⟨-, w, hw, ⟨hm, rfl⟩ | ⟨hnot, rfl⟩⟩ := handed hp hv
    · obtain ⟨x, hx, rfl⟩ := mem_map.mp hm
      obtain ⟨w', hw', hwl, hwk, -, -, -, hin⟩ := h.node (hmine hx)
      rw [hw] at hw'
      obtain rfl := waiting.inj hw'
      have hk := h.kept hw
      refine ⟨nofun, fun hst => ?_, hk.sleeps, hk.spins, fun _ => ?_⟩
      · rcases hst with hst | hst <;> rw [hst] at hin <;> contradiction
      · rw [hwl, update_self, hg, hwk]
        exact List.mem_append_left _ (List.mem_map_of_mem hx)
    · refine (h.kept hw).mono (fun hm => ?_) hhold
      rw [update_apply]
      split
      · next hmn =>
        rw [hmn, hl, map_append] at hm
        exact (mem_append.mp hm).resolve_left hnot
      · exact hm
  · obtain ⟨q', hq'⟩ := sema_of_update (fun q hq => (hs q hq).1) hm
    have old : e ∈ (ledger m).holders → e.2 = .plain ∧ ∃ w,
        update (grantAll place nodes) who p e.1 = .waiting w ∧ w.lock = m ∧ w.granted = true := by
      intro he'
      obtain ⟨hk, w, hw, hwl, hgr⟩ := h.units hq' he'
      refine ⟨hk, _, handed_of (hstay hw) hw, hwl, ?_⟩
      rw [hgr, Bool.or_true]
    rw [update_apply] at he
    split at he
    · next hmn =>
      rw [hg] at he
      rcases mem_append.mp he with he | he
      · obtain ⟨x, hx, rfl⟩ := mem_map.mp he
        obtain ⟨w, hw, hwl, -⟩ := h.node (hmine hx)
        rw [hmn, update_self] at hm
        refine ⟨(hs q hm).2 x hx, _, handed_of (hstay hw) hw, hwl.trans hmn.symm, ?_⟩
        rw [decide_eq_true (List.mem_map_of_mem hx), Bool.true_or]
      · exact old (hmn ▸ he)
    · exact old he
  · obtain ⟨q', hq'⟩ := sema_of_update (fun q hq => (hs q hq).1) hm
    rw [update_apply]
    split
    · next hmn =>
      subst hmn
      have hfst : nodes.map WaitNode.who = (nodes.map fun x => (x.who, x.kind)).map Prod.fst := by
        rw [map_map]
        rfl
      rw [hg, List.nodup_append']
      refine ⟨List.Nodup.of_map Prod.fst (hfst ▸ hnd.1), h.once hq', fun e he he' => ?_⟩
      -- A holder has been granted its unit, the owner of a node has not.
      obtain ⟨x, hx, rfl⟩ := mem_map.mp he
      obtain ⟨-, w, hw, -, hgr⟩ := h.units hq' he'
      obtain ⟨w', hw', -, -, -, -, hgr', -⟩ := h.node (hmine hx)
      rw [hw] at hw'
      obtain rfl := waiting.inj hw'
      rw [hgr] at hgr'
      contradiction
    · exact h.once hq'

/-- A waiter whose time is up takes its node out. -/
theorem timeout {st : ParkStage} (hc : place c = .waiting w) (hg : w.granted = false)
    (hst : st = .cancel false ∨ st = .leave false) (hl : l.waiters = remove (lock w.lock).waiters c)
    (hs : ∀ q', l = .sema q' → ∃ q, lock w.lock = .sema q) : Linked (update lock w.lock l) ledger
      (update place c (.waiting { w with stage := st })) := by
  -- the node of `c` is taken out of the one list it was in
  have hlist : ∀ {m x}, x ∈ (update lock w.lock l m).waiters →
      x ∈ (lock m).waiters ∧ x.who ≠ c := by
    intro m x hx
    rw [update_apply] at hx
    split at hx
    · next hm =>
      subst hm
      rw [hl] at hx
      exact ⟨(mem_filter.mp hx).1, by simpa using (mem_filter.mp hx).2⟩
    · next hm =>
      refine ⟨hx, ?_⟩
      rintro rfl
      obtain ⟨w', hw', hwl, -⟩ := h.node hx
      rw [hc] at hw'
      obtain rfl := waiting.inj hw'
      exact hm hwl.symm
  refine .of_kept (fun m => ?_) (fun m x hx => ?_) (fun d v hv => ?_) (fun m q e hm he => ?_)
    fun m q hm => ?_
  · rw [update_apply]
    split
    · rw [hl]
      exact (List.filter_sublist.map _).nodup (h.nodup _)
    · exact h.nodup m
  · obtain ⟨hx', hne⟩ := hlist hx
    obtain ⟨v, hv, hrest⟩ := h.node hx'
    exact ⟨v, by rw [update_of_ne hne, hv], hrest⟩
  · rcases update_place hv with ⟨rfl, hv'⟩ | ⟨hne, hv'⟩
    -- it gave up before it was granted
    · obtain rfl := waiting.inj hv'
      refine ⟨fun _ hi => ?_, fun hr => ?_, (h.kept hc).sleeps, fun _ => ?_, fun hgr => ?_⟩
      · rcases hst with rfl | rfl <;> contradiction
      · rcases hst with rfl | rfl <;> simpa [hg] using hr
      · rcases hst with rfl | rfl <;> exact ⟨nofun, nofun⟩
      · rw [hg] at hgr
        contradiction
    · refine (h.kept hv').mono (fun hm => ?_) id
      rw [update_apply]
      split
      · next hmn =>
        rw [hmn] at hm
        obtain ⟨x, hx, hxd⟩ := mem_map.mp hm
        rw [hl]
        refine mem_map.mpr ⟨x, mem_filter.mpr ⟨hx, ?_⟩, hxd⟩
        simpa [hxd] using hne
      · exact hm
  · obtain ⟨q', hq'⟩ := sema_of_update hs hm
    obtain ⟨hk, v, hv, hvl, hgr⟩ := h.units hq' he
    refine ⟨hk, v, ?_, hvl, hgr⟩
    rw [update_of_ne, hv]
    intro hec
    rw [hec, hc] at hv
    obtain rfl := waiting.inj hv
    rw [hg] at hgr
    contradiction
  · obtain ⟨q', hq'⟩ := sema_of_update hs hm
    exact h.once hq'

/-- A waiter returns. -/
theorem leave {r : Bool} (hc : place c = .waiting w) (hst : w.stage = .leave r)
    (hg : ∀ m, m ≠ w.lock → ledger' m = ledger m) (hsema : ∀ q, lock w.lock = .sema q →
      (ledger' w.lock).holders = (ledger w.lock).holders.erase (c, .plain))
    (hother : (∀ q, lock w.lock ≠ .sema q) → (ledger' w.lock).holders = (ledger w.lock).holders) :
    Linked lock ledger' (update place c .idle) := by
  have hback : ∀ {d v}, update place c .idle d = .waiting v → d ≠ c ∧ place d = .waiting v := by
    intro d v hv
    rcases update_place hv with ⟨-, hv'⟩ | hv'
    · nomatch hv'
    · exact hv'
  -- nobody else's hold of the lock changes
  have hkeep : ∀ {m e}, e.1 ≠ c → e ∈ (ledger m).holders → e ∈ (ledger' m).holders := by
    intro m e he hm
    by_cases hml : m = w.lock
    · subst hml
      by_cases hs : ∃ q, lock w.lock = .sema q
      · obtain ⟨q, hq⟩ := hs
        rw [hsema q hq]
        refine (List.mem_erase_of_ne ?_).mpr hm
        rintro rfl
        exact he rfl
      · rw [hother (not_exists.mp hs)]
        exact hm
    · rw [hg m hml]
      exact hm
  refine .of_kept h.nodup (fun m x hx => ?_)
    (fun d v hv => (h.kept (hback hv).2).mono id (hkeep (hback hv).1)) (fun m q e hm he => ?_)
    fun m q hm => ?_
  · obtain ⟨v, hv, hrest⟩ := h.node hx
    refine ⟨v, ?_, hrest⟩
    -- a context that leaves has no node in a list any more
    rw [update_of_ne, hv]
    intro hxc
    rw [hxc, hc] at hv
    obtain rfl := waiting.inj hv
    have hin := hrest.2.2.2.2.2
    rw [hst] at hin
    contradiction
  -- units of a semaphore that are held on the way out: each is of one wait
  · have hold : e ∈ (ledger m).holders ∧ (m = w.lock → e ≠ (c, .plain)) := by
      by_cases hml : m = w.lock
      · subst hml
        rw [hsema q hm] at he
        exact ⟨List.mem_of_mem_erase he, fun _ => ((h.once hm).mem_erase_iff.mp he).1⟩
      · rw [hg m hml] at he
        exact ⟨he, fun heq => absurd heq hml⟩
    obtain ⟨hk, v, hv, hvl, hgr⟩ := h.units hm hold.1
    refine ⟨hk, v, ?_, hvl, hgr⟩
    rw [update_of_ne, hv]
    intro hec
    rw [hec, hc] at hv
    obtain rfl := waiting.inj hv
    exact hold.2 hvl.symm (Prod.ext hec hk)
  · by_cases hml : m = w.lock
    · subst hml
      rw [hsema q hm]
      exact (h.once hm).erase _
    · rw [hg m hml]
      exact h.once hm

end Linked

end Ksync

end Leandros.Sched
