import Lunule.Flock.Index

/-!
is_deadlock is sound (mds/flock.cc). In the wait-for graph an owner `a` waits for an owner
`b` when, on an fcntl inode, a waiting lock of `a` conflicts with a lock that `b` holds
there; the request being decided adds edges from its owner to the owners of the held locks
it conflicts with. When is_deadlock answers true for a request in a reachable system, this
graph has a cycle through the request's owner. Each level of the search follows a global
entry, which by the index invariant stands for a waiting lock with the same owner, range and
type, to the locks of other owners that share a byte with it. The search is a recursion on
the levels left, so it ends in every state.
-/

namespace Lunule.Flock

open Relation

/-! ## What the overlap search finds -/

theorem covers_start (l : Filelock) : Covers l l.start.toNat := by
  refine ⟨le_rfl, UInt64.toNat_lt _, ?_⟩
  by_cases h0 : l.length = 0
  · exact .inl h0
  · have hlen : l.length.toNat ≠ 0 := fun h => h0 (UInt64.toNat_inj.1 h)
    right
    omega

theorem lt_add_of_le_lockEnd {a : UInt64} {l : Filelock} (h1 : l.start ≤ a) (h2 : a ≤ lockEnd l) :
    l.length = 0 ∨ a.toNat < l.start.toNat + l.length.toNat := by
  by_cases h0 : l.length = 0
  · exact .inl h0
  · right
    have hlen : l.length.toNat ≠ 0 := fun h => h0 (UInt64.toNat_inj.1 h)
    have hone : (1 : UInt64) ≤ l.length := by
      rw [UInt64.le_iff_toNat_le, UInt64.toNat_one]
      omega
    unfold lockEnd at h2
    rw [if_pos h0, UInt64.le_iff_toNat_le, UInt64.toNat_add, UInt64.toNat_sub_of_le _ _ hone,
      UInt64.toNat_one] at h2
    rw [UInt64.le_iff_toNat_le] at h1
    have := UInt64.toNat_lt l.start
    have := UInt64.toNat_lt l.length
    omega

theorem lt_add_of_le_add_sub_one {a b c : UInt64} (h1 : a < c) (h2 : c ≤ a + b - 1) (hb : b ≠ 0) :
    c.toNat < a.toNat + b.toNat := by
  have hb' : b.toNat ≠ 0 := fun h => hb (UInt64.toNat_inj.1 h)
  rw [UInt64.le_iff_toNat_le, UInt64.toNat_sub, UInt64.toNat_add, UInt64.toNat_one] at h2
  rw [UInt64.lt_iff_toNat_lt] at h1
  have := UInt64.toNat_lt a
  have := UInt64.toNat_lt b
  have := UInt64.toNat_lt c
  omega

/-- share_space finds real overlaps only, for a lock keyed by its start: the 64-bit ends may
wrap, which can only hide one. -/
theorem covers_of_shareSpaceLock {e : Entry} {l : Filelock} (hk : e.key = e.val.start)
    (h : shareSpaceLock e l = true) : ∃ x, Covers e.val x ∧ Covers l x := by
  unfold shareSpaceLock shareSpace at h
  rw [hk] at h
  simp only [Bool.decide_or, Bool.decide_and, Bool.or_eq_true, Bool.and_eq_true, decide_eq_true_eq] at h
  rcases h with ⟨h1, h2⟩ | ⟨h1, h2⟩
  · exact ⟨_, covers_start e.val,
      ⟨UInt64.le_iff_toNat_le.1 h1, UInt64.toNat_lt _, lt_add_of_le_lockEnd h1 h2⟩⟩
  · refine ⟨_, ⟨(UInt64.lt_iff_toNat_lt.1 h1).le, UInt64.toNat_lt _, ?_⟩, covers_start l⟩
    rcases h2 with h2 | h2
    · by_cases h0 : e.val.length = 0
      · exact .inl h0
      · exact .inr (lt_add_of_le_add_sub_one h1 h2 h0)
    · exact .inl h2

theorem overlapWalk_sound {l nc : Filelock} {nb : Bool} (P : Entry → Prop) :
    ∀ (xs : List Entry) (acc : List Entry × List Entry), (∀ e ∈ xs, shareSpaceLock e l = true → P e) →
      (∀ e ∈ acc.1, P e) → ∀ e ∈ (overlapWalk l nc nb xs acc).1, P e
  | [], _, _, hacc => hacc
  | x :: xs, (ov, nbs), hxs, hacc => by
    have hstep : ∀ e ∈ (if shareSpaceLock x l then (x :: ov, nbs)
        else if nb ∧ ownerEqual nc x.val ∧ shareSpaceLock x nc then (ov, x :: nbs) else (ov, nbs)).1,
        P e := by
      split_ifs with hx
      · intro e he
        rcases List.mem_cons.1 he with rfl | he
        · exact hxs e List.mem_cons_self hx
        · exact hacc e he
      · exact hacc
      · exact hacc
    rw [overlapWalk]
    by_cases hstop : x.key < l.start ∧ x.val.type = lockExcl
    · rw [if_pos hstop]
      exact hstep
    · rw [if_neg hstop]
      exact overlapWalk_sound P xs _ (fun e he => hxs e (List.mem_cons_of_mem x he)) hstep

theorem getOverlappingLocks_sound {m : List Entry} {l : Filelock} {nb : Bool} {e : Entry}
    (he : e ∈ (getOverlappingLocks m l nb).1) : e ∈ m ∧ shareSpaceLock e l = true := by
  unfold getOverlappingLocks at he
  dsimp only at he
  revert he
  rcases getLastBefore m (if l.length ≠ 0 then l.start + l.length else -1) with _ | i
  · simp
  · exact overlapWalk_sound (fun e => e ∈ m ∧ shareSpaceLock e l = true) _ _
      (fun e he hs => ⟨(List.take_sublist _ _).subset (List.mem_reverse.1 he), hs⟩) (by simp) e

/-- A lock of another owner that the overlap search returns for `fl` from a keyed map is one
of the map's and shares a byte with `fl`. -/
theorem mem_others {m : List Entry} (hm : Keyed m) {fl : Filelock} {nb : Bool} {p : Entry}
    (hp : p ∈ (splitByOwner fl (getOverlappingLocks m fl nb).1).1) :
    p ∈ m ∧ ownerKey p.val ≠ ownerKey fl ∧ ∃ x, Covers p.val x ∧ Covers fl x := by
  obtain ⟨hp, hne⟩ := List.mem_filter.1 hp
  obtain ⟨hpm, hs⟩ := getOverlappingLocks_sound hp
  refine ⟨hpm, fun h => ?_, covers_of_shareSpaceLock (hm p hpm) hs⟩
  rw [← ownerEqual_iff] at h
  simp [h] at hne

/-! ## The wait-for graph -/

/-- Two locks conflict: they share a byte, and they are not both shared. -/
def Conflicts (a b : Filelock) : Prop :=
  ¬(a.type = lockShared ∧ b.type = lockShared) ∧ ∃ x, Covers a x ∧ Covers b x

/-- The wait-for edge `a → b`: on an fcntl inode, a waiting lock of `a` conflicts with a lock
that another owner `b` holds there. -/
def WaitsFor (sys : Sys) (a b : UInt64 × UInt64 × UInt64) : Prop :=
  ∃ s, (sys.states s).type = .fcntl ∧ ∃ w ∈ (sys.states s).waiting, ∃ h ∈ (sys.states s).held,
    ownerKey w.val = a ∧ ownerKey h.val = b ∧ a ≠ b ∧ Conflicts w.val h.val

/-- The edges of the request `L` on inode `s`: to the other owners of the locks there that
conflict with it. -/
def RequestWaits (sys : Sys) (s : ℕ) (L : Filelock) (a b : UInt64 × UInt64 × UInt64) : Prop :=
  a = ownerKey L ∧ ∃ h ∈ (sys.states s).held, ownerKey h.val = b ∧ a ≠ b ∧ Conflicts L h.val

/-! ## The search -/

/-- What a true answer of one level of the search rests on: a conflicting lock of the first
request's owner, or, with a level left, a waiting lock of a conflicting owner from which the
next level answers true. -/
theorem deadlockSearch_cases {sys : Sys} {k : ℕ} {firstFl : Option Filelock} {fl : Filelock}
    {ov : List Entry} (h : deadlockSearch sys k firstFl fl ov = true) :
    (∃ p ∈ ov, ¬(fl.type = lockShared ∧ p.val.type = lockShared) ∧
      ∃ F, firstFl = some F ∧ ownerKey F = ownerKey p.val) ∨
    ∃ k', k = k' + 1 ∧ ∃ p ∈ ov, ¬(fl.type = lockShared ∧ p.val.type = lockShared) ∧
      ∃ q ∈ waitersOf sys.global (ownerOnly p.val), deadlockSearch sys k' (some (firstFl.getD fl)) q.1
        (splitByOwner q.1 (getOverlappingLocks (sys.states q.2).held q.1 false).1).1 = true := by
  rw [deadlockSearch.eq_def] at h
  simp only [Bool.or_eq_true, List.any_eq_true, List.mem_filter] at h
  rcases h with ⟨p, ⟨hp, hc⟩, hF⟩ | h
  · left
    cases firstFl with
    | none => simp at hF
    | some F =>
      exact ⟨p, hp, fun h => by simp [h.1, h.2] at hc, F, rfl, (ownerEqual_iff _ _).1 (by simpa using hF)⟩
  · right
    cases k with
    | zero => simp at h
    | succ k =>
      simp only [List.any_map, List.any_eq_true, List.mem_filter, Function.comp_apply,
        Bool.and_eq_true] at h
      obtain ⟨p, ⟨hp, hc⟩, q, hq, -, hrec⟩ := h
      exact ⟨k, rfl, p, hp, fun h => by simp [h.1, h.2] at hc, q, hq, hrec⟩

/-- A global entry the search follows is a waiting lock of an fcntl inode, so its conflicts
with the locks of other owners there are wait-for edges. -/
theorem waitsFor_of_waiter {sys : Sys} (hinv : sys.Inv) {q : Filelock × ℕ} (hq : q ∈ sys.global)
    {p : Entry} (hp : p ∈ (splitByOwner q.1 (getOverlappingLocks (sys.states q.2).held q.1 false).1).1)
    (hc : ¬(q.1.type = lockShared ∧ p.val.type = lockShared)) :
    WaitsFor sys (ownerKey q.1) (ownerKey p.val) := by
  obtain ⟨hfc, w, hw, hwr⟩ := hinv.backed hq
  obtain ⟨hpm, hne, x, hxp, hxq⟩ := mem_others (hinv.keyed q.2).held hp
  obtain ⟨hko, hks, hkl, hkt⟩ := (lockRank_eq_iff _ _).1 hwr
  have hxw : Covers w.val x := by
    unfold Covers at hxq ⊢
    rw [hks, hkl]
    exact hxq
  refine ⟨q.2, hfc, w, hw, p, hpm, hko, rfl, Ne.symm hne, ?_, x, hxw, hxp⟩
  rw [hkt]
  exact hc

/-- Soundness of the search, level by level: from a walk from the first request's owner to the
owner of `fl`, and edges from `fl` to the conflicting locks `ov`, a true answer closes the walk
into a cycle. -/
theorem deadlockSearch_sound {sys : Sys} (hinv : sys.Inv)
    {R : UInt64 × UInt64 × UInt64 → UInt64 × UInt64 × UInt64 → Prop}
    (hR : ∀ a b, WaitsFor sys a b → R a b) (k : ℕ) :
    ∀ (firstFl : Option Filelock) (fl : Filelock) (ov : List Entry),
      (∀ p ∈ ov, ¬(fl.type = lockShared ∧ p.val.type = lockShared) → R (ownerKey fl) (ownerKey p.val)) →
      ReflTransGen R (ownerKey (firstFl.getD fl)) (ownerKey fl) →
      deadlockSearch sys k firstFl fl ov = true →
      TransGen R (ownerKey (firstFl.getD fl)) (ownerKey (firstFl.getD fl)) := by
  induction k with
  | zero =>
    intro firstFl fl ov hov hpath h
    rcases deadlockSearch_cases h with ⟨p, hp, hc, F, rfl, hF⟩ | ⟨k', hk, -⟩
    · exact .tail' hpath (hF ▸ hov p hp hc)
    · exact absurd hk.symm (Nat.succ_ne_zero k')
  | succ k ih =>
    intro firstFl fl ov hov hpath h
    rcases deadlockSearch_cases h with ⟨p, hp, hc, F, rfl, hF⟩ | ⟨k', hk, p, hp, hc, q, hq, hrec⟩
    · exact .tail' hpath (hF ▸ hov p hp hc)
    · obtain rfl : k = k' := Nat.succ_injective hk
      unfold waitersOf SortedBag.fromLowerBound at hq
      have hqg : q ∈ sys.global :=
        (List.dropWhile_sublist _).subset ((List.takeWhile_sublist _).subset hq)
      have hqp := List.mem_takeWhile_imp hq
      have hqo : ownerKey q.1 = ownerKey p.val := (ownerEqual_iff q.1 (ownerOnly p.val)).1 hqp
      have hpath' : ReflTransGen R (ownerKey (firstFl.getD fl)) (ownerKey q.1) :=
        hpath.tail (hqo ▸ hov p hp hc)
      exact ih (some (firstFl.getD fl)) q.1 _ (fun p' hp' hc' => hR _ _ (waitsFor_of_waiter hinv hqg hp' hc'))
        hpath' hrec

/-- is_deadlock is sound: in a system reachable from empty lock states, when it answers true
for a request `L` on inode `s` and the locks of other owners it overlaps there, the wait-for
graph with the request's edges has a cycle through the owner of `L`. -/
theorem isDeadlock_sound {types : ℕ → LockRule} {evs : List SysEvent} {sys : Sys}
    (hrun : Runs.run Sys.step (Sys.init types) evs = some sys) (s : ℕ) (L : Filelock)
    (hdl : isDeadlock sys (sys.states s).type L
      (splitByOwner L (getOverlappingLocks (sys.states s).held L true).1).1 none 0 = true) :
    TransGen (fun a b => WaitsFor sys a b ∨ RequestWaits sys s L a b) (ownerKey L) (ownerKey L) := by
  have hinv := Sys.inv_run types evs hrun
  simp only [isDeadlock, Bool.and_eq_true] at hdl
  refine deadlockSearch_sound hinv (fun a b h => .inl h) _ none L _ (fun p hp hc => .inr ?_) .refl hdl.2
  obtain ⟨hpm, hne, x, hxp, hxL⟩ := mem_others (hinv.keyed s).held hp
  exact ⟨rfl, p, hpm, rfl, Ne.symm hne, hc, x, hxL, hxp⟩

/-- Owner 1 holds byte 0 of inode 0; owner 2 holds byte 0 of inode 1 and waits for byte 0 of
inode 0. -/
def lockOne : Filelock := ⟨0, 1, 1, 1, 1, lockExcl⟩

def lockTwo : Filelock := ⟨0, 1, 2, 2, 2, lockExcl⟩

def crossWaits : List SysEvent :=
  [.addLock 0 lockOne false false, .addLock 1 lockTwo false false, .addLock 0 lockTwo true false]

/-- Owner 1 asking for byte 0 of inode 1 would close the circle, and is_deadlock says so. -/
theorem crossWaits_deadlock :
    ∃ sys, Runs.run Sys.step (Sys.init fun _ => .fcntl) crossWaits = some sys ∧
      isDeadlock sys (sys.states 1).type lockOne
        (splitByOwner lockOne (getOverlappingLocks (sys.states 1).held lockOne true).1).1 none 0 = true ∧
      TransGen (fun a b => WaitsFor sys a b ∨ RequestWaits sys 1 lockOne a b) (ownerKey lockOne)
        (ownerKey lockOne) :=
  ⟨_, rfl, by decide, @isDeadlock_sound (fun _ => .fcntl) crossWaits _ rfl 1 lockOne (by decide)⟩

end Lunule.Flock
