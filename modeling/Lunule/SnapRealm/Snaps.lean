import Lunule.SnapRealm
import Lunule.SortedBag
import Mathlib.Order.Preorder.Finite
import Mathlib.Order.WellFounded
import Mathlib.Logic.Relation

/-!
What a realm's snapshots are, and that `build_snap_set` and `prune_past_parents` compute them.
`HasSnap` says it: a realm sees its own snaps, each former parent's snaps within that parent's
interval, and the current parent's snaps from `current_parent_since` on. On a finite cache with
no cycle of parents, where each realm's past-parent intervals are nonempty and disjoint,
`build_snap_set` ends and returns what the realm sees within the range. `prune_past_parents`
keeps every snap up to `CEPH_NOSNAP` when the cache it reads is up to date.
-/

namespace Lunule.Snap

/-! ## What a realm sees -/

/-- The snapshots the realm of inode `i` sees. -/
inductive HasSnap (H : Realms) : ℕ → ℕ → Prop
  | own {i x : ℕ} {realm : SnapRealm} : H i = some realm → x ∈ realm.srnode.snaps → HasSnap H i x
  | past {i x : ℕ} {realm : SnapRealm} {e : ℕ × SnaplinkT} : H i = some realm →
      e ∈ realm.srnode.pastParents → e.2.first ≤ x → x ≤ e.1 → HasSnap H e.2.ino x →
      HasSnap H i x
  | current {i q x : ℕ} {realm : SnapRealm} : H i = some realm → realm.parent = some q →
      realm.srnode.currentParentSince ≤ x → HasSnap H q x → HasSnap H i x

/-- What a realm's own fields let it see, through what its parents see. -/
def Sees (H : Realms) (realm : SnapRealm) (x : ℕ) : Prop :=
  x ∈ realm.srnode.snaps ∨
    (∃ e ∈ realm.srnode.pastParents, e.2.first ≤ x ∧ x ≤ e.1 ∧ HasSnap H e.2.ino x) ∨
    ∃ q, realm.parent = some q ∧ realm.srnode.currentParentSince ≤ x ∧ HasSnap H q x

theorem hasSnap_iff {H : Realms} {i : ℕ} {realm : SnapRealm} (hi : H i = some realm) (x : ℕ) :
    HasSnap H i x ↔ Sees H realm x := by
  constructor
  · intro h
    cases h with
    | own hi' hx =>
      cases hi.symm.trans hi'
      exact .inl hx
    | past hi' he hf hk hp =>
      cases hi.symm.trans hi'
      exact .inr (.inl ⟨_, he, hf, hk, hp⟩)
    | current hi' hq hs hp =>
      cases hi.symm.trans hi'
      exact .inr (.inr ⟨_, hq, hs, hp⟩)
  · rintro (hx | ⟨e, he, hf, hk, hp⟩ | ⟨q, hq, hs, hp⟩)
    · exact .own hi hx
    · exact .past hi he hf hk hp
    · exact .current hi hq hs hp

/-- The union `build_snap_set` returns over `[first, last]`: the realm's own snaps in the range,
each past parent's snaps in its interval cut to the range, and the current parent's snaps from
`max first current_parent_since` to `last`. -/
def RangeSnaps (H : Realms) (realm : SnapRealm) (first last x : ℕ) : Prop :=
  (first ≤ x ∧ x ≤ last ∧ x ∈ realm.srnode.snaps) ∨
    (∃ e ∈ realm.srnode.pastParents,
      max first e.2.first ≤ x ∧ x ≤ min last e.1 ∧ HasSnap H e.2.ino x) ∨
    ∃ q, realm.parent = some q ∧ max first realm.srnode.currentParentSince ≤ x ∧ x ≤ last ∧
      HasSnap H q x

theorem rangeSnaps_iff {H : Realms} {realm : SnapRealm} {first last x : ℕ} :
    RangeSnaps H realm first last x ↔ first ≤ x ∧ x ≤ last ∧ Sees H realm x := by
  simp only [RangeSnaps, Sees, max_le_iff, le_min_iff]
  constructor
  · rintro (⟨h1, h2, hx⟩ | ⟨e, he, ⟨h1, hf⟩, ⟨h2, hk⟩, hp⟩ | ⟨q, hq, ⟨h1, hs⟩, h2, hp⟩)
    · exact ⟨h1, h2, .inl hx⟩
    · exact ⟨h1, h2, .inr (.inl ⟨e, he, hf, hk, hp⟩)⟩
    · exact ⟨h1, h2, .inr (.inr ⟨q, hq, hs, hp⟩)⟩
  · rintro ⟨h1, h2, hx | ⟨e, he, hf, hk, hp⟩ | ⟨q, hq, hs, hp⟩⟩
    · exact .inl ⟨h1, h2, hx⟩
    · exact .inr (.inl ⟨e, he, ⟨h1, hf⟩, ⟨h2, hk⟩, hp⟩)
    · exact .inr (.inr ⟨q, hq, ⟨h1, hs⟩, h2, hp⟩)

theorem rangeSnaps_iff_hasSnap {H : Realms} {i : ℕ} {realm : SnapRealm} (hi : H i = some realm)
    {first last x : ℕ} :
    RangeSnaps H realm first last x ↔ first ≤ x ∧ x ≤ last ∧ HasSnap H i x := by
  rw [rangeSnaps_iff, hasSnap_iff hi]

/-! ## The conditions on the cache -/

/-- The conditions on one realm: the interval `[first, key]` of each past parent is nonempty,
the intervals are pairwise disjoint, and every parent named has a realm in the cache. -/
structure SnapRealm.WellFormed (H : Realms) (realm : SnapRealm) : Prop where
  first_le : ∀ e ∈ realm.srnode.pastParents, e.2.first ≤ e.1
  disjoint : realm.srnode.pastParents.Pairwise
    fun e e' => ∀ x, ¬ ((e.2.first ≤ x ∧ x ≤ e.1) ∧ e'.2.first ≤ x ∧ x ≤ e'.1)
  past_open : ∀ e ∈ realm.srnode.pastParents, (H e.2.ino).isSome
  parent_open : ∀ q, realm.parent = some q → (H q).isSome

/-- `j` is a parent of `i`, past or current. -/
def ParentOf (H : Realms) (j i : ℕ) : Prop :=
  ∃ realm, H i = some realm ∧
    ((∃ e ∈ realm.srnode.pastParents, e.2.ino = j) ∨ realm.parent = some j)

/-- A relation whose targets form a finite set and that has no cycle is well-founded: an endless
descending chain stays in the finite set, so it comes back to one of its elements. -/
theorem wellFounded_of_finite_acyclic {α : Type} {r : α → α → Prop}
    (hfin : {a | ∃ b, r b a}.Finite) (hacyc : ∀ a, ¬ Relation.TransGen r a a) : WellFounded r := by
  rw [wellFounded_iff_isEmpty_descending_chain]
  refine ⟨fun ⟨f, hf⟩ => ?_⟩
  have hmem : ∀ k, f k ∈ {a | ∃ b, r b a} := fun k => ⟨f (k + 1), hf k⟩
  obtain ⟨m, n, hmn, hfe⟩ := hfin.exists_lt_map_eq_of_forall_mem hmem
  have hchain : ∀ k, Relation.TransGen r (f (m + k + 1)) (f m) := by
    intro k
    induction k with
    | zero => exact .single (hf m)
    | succ k ih => exact .head (hf (m + k + 1)) ih
  obtain ⟨k, rfl⟩ : ∃ k, n = m + k + 1 := ⟨n - m - 1, by omega⟩
  have hcycle := hchain k
  rw [← hfe] at hcycle
  exact hacyc _ hcycle

/-! ## Lists sorted by key -/

theorem mem_keysIn {keys : List ℕ} (hs : keys.Pairwise (· < ·)) {first last x : ℕ} :
    x ∈ keysIn keys first last ↔ first ≤ x ∧ x ≤ last ∧ x ∈ keys := by
  have hD : ∀ a b : ℕ, a < b → decide (b < first) = true → decide (a < first) = true := by
    intro a b hab hb
    simp only [decide_eq_true_eq] at hb ⊢
    omega
  unfold keysIn
  constructor
  · intro hx
    have hle := List.mem_takeWhile_imp hx
    have hdrop := (List.takeWhile_sublist _).subset hx
    have hge := SortedBag.not_of_mem_dropWhile hD hs x hdrop
    simp only [decide_eq_true_eq, decide_eq_false_iff_not, not_lt] at hle hge
    exact ⟨hge, hle, (List.dropWhile_sublist _).subset hdrop⟩
  · rintro ⟨h1, h2, hx⟩
    refine SortedBag.mem_takeWhile_dropWhile hD hs hx (by simpa using h1) (by simpa using h2) ?_
    intro z _ hzx _
    simp only [decide_eq_true_eq]
    omega

/-- Sorted by key and disjoint, each interval ends before the next one starts. -/
theorem SnapRealm.WellFormed.chain {H : Realms} {realm : SnapRealm} (hwf : realm.WellFormed H) :
    realm.srnode.pastParents.Pairwise fun e e' => e.1 < e'.1 ∧ e.1 < e'.2.first := by
  have hkeys : realm.srnode.pastParents.Pairwise fun e e' => e.1 < e'.1 :=
    List.pairwise_map.1 realm.srnode.pastParents_sorted
  refine (hkeys.and hwf.disjoint).imp_of_mem fun he _ ⟨hlt, hdis⟩ => ⟨hlt, ?_⟩
  by_contra hle
  exact hdis _ ⟨⟨hwf.first_le _ he, le_rfl⟩, not_lt.1 hle, hlt.le⟩

/-- The past parents `build_snap_set` visits are, for what they give within the range, all of
them: those it skips have intervals outside the range. -/
theorem exists_pastParentsIn_iff {H : Realms} {realm : SnapRealm} (hwf : realm.WellFormed H)
    {first last x : ℕ} {P : ℕ × SnaplinkT → Prop} :
    (∃ e ∈ pastParentsIn realm.srnode.pastParents first last,
        max first e.2.first ≤ x ∧ x ≤ min last e.1 ∧ P e) ↔
      ∃ e ∈ realm.srnode.pastParents, max first e.2.first ≤ x ∧ x ≤ min last e.1 ∧ P e := by
  constructor
  · rintro ⟨e, he, hx⟩
    exact ⟨e, (List.dropWhile_sublist _).subset ((List.takeWhile_sublist _).subset he), hx⟩
  · rintro ⟨e, he, h1, h2, hp⟩
    refine ⟨e, ?_, h1, h2, hp⟩
    rw [max_le_iff] at h1
    rw [le_min_iff] at h2
    refine SortedBag.mem_takeWhile_dropWhile (R := fun e e' => e.1 < e'.1 ∧ e.1 < e'.2.first)
      ?_ hwf.chain he ?_ ?_ ?_
    · intro a b hab hb
      simp only [decide_eq_true_eq] at hb ⊢
      omega
    · simp only [decide_eq_false_iff_not, not_lt]
      omega
    · simp only [Bool.and_eq_true, decide_eq_true_eq]
      omega
    · intro z hz hze hzd
      have := hwf.first_le z hz
      simp only [decide_eq_false_iff_not, not_lt] at hzd
      simp only [Bool.and_eq_true, decide_eq_true_eq]
      omega

/-! ## build_snap_set -/

/-- `build_snap_set` on the realm of inode `i`, with this much fuel, adds the union of the range
to the set it is given, over every range. -/
def BuildSpec (H : Realms) (fuel i : ℕ) : Prop :=
  ∀ realm, H i = some realm → ∀ (acc : SnapAcc) (first last : ℕ), ∃ acc',
    buildSnapSet H fuel realm acc first last = some acc' ∧
      ∀ x, x ∈ acc'.s ↔ x ∈ acc.s ∨ RangeSnaps H realm first last x

/-- A fold whose every step adds a set to the accumulated one adds their union. -/
theorem foldlM_spec {α : Type} {g : SnapAcc → α → Option SnapAcc} {P : α → ℕ → Prop} :
    ∀ (l : List α), (∀ e ∈ l, ∀ acc, ∃ acc', g acc e = some acc' ∧
        ∀ x, x ∈ acc'.s ↔ x ∈ acc.s ∨ P e x) →
      ∀ acc, ∃ acc', l.foldlM g acc = some acc' ∧ ∀ x, x ∈ acc'.s ↔ x ∈ acc.s ∨ ∃ e ∈ l, P e x
  | [], _, acc => ⟨acc, rfl, fun x => by simp⟩
  | e :: l, hg, acc => by
    obtain ⟨acc₁, h₁, hx₁⟩ := hg e (List.mem_cons_self ..) acc
    obtain ⟨acc₂, h₂, hx₂⟩ := foldlM_spec l (fun e' he' => hg e' (List.mem_cons_of_mem _ he')) acc₁
    refine ⟨acc₂, by rw [List.foldlM_cons, h₁]; exact h₂, fun x => ?_⟩
    rw [hx₂, hx₁]
    simp only [List.mem_cons, exists_eq_or_imp]
    exact or_assoc

theorem mem_addRealm {acc : SnapAcc} {sr : SrT} {first last x : ℕ} :
    x ∈ (acc.addRealm sr first last).s ↔ x ∈ acc.s ∨ (first ≤ x ∧ x ≤ last ∧ x ∈ sr.snaps) := by
  simp only [SnapAcc.addRealm, Finset.mem_union, List.mem_toFinset, mem_keysIn sr.snaps_sorted]

/-- One call of `build_snap_set` on a well-formed realm, when the calls on its parents meet
their spec: the three parts of the body add the three parts of the union. -/
theorem buildSnapSet_succ_spec {H : Realms} {f i : ℕ} {realm : SnapRealm}
    (hi : H i = some realm) (hwf : realm.WellFormed H)
    (hpar : ∀ j, ParentOf H j i → BuildSpec H f j) (acc : SnapAcc) (first last : ℕ) :
    ∃ acc', buildSnapSet H (f + 1) realm acc first last = some acc' ∧
      ∀ x, x ∈ acc'.s ↔ x ∈ acc.s ∨ RangeSnaps H realm first last x := by
  have hvisit : ∀ e ∈ pastParentsIn realm.srnode.pastParents first last, ∀ acc, ∃ acc',
      (do
        let oldparent ← H e.2.ino
        buildSnapSet H f oldparent acc (max first e.2.first) (min last e.1)) = some acc' ∧
      ∀ x, x ∈ acc'.s ↔ x ∈ acc.s ∨
        (max first e.2.first ≤ x ∧ x ≤ min last e.1 ∧ HasSnap H e.2.ino x) := by
    intro e he acc
    have he' : e ∈ realm.srnode.pastParents :=
      (List.dropWhile_sublist _).subset ((List.takeWhile_sublist _).subset he)
    obtain ⟨old, hold⟩ := Option.isSome_iff_exists.1 (hwf.past_open e he')
    obtain ⟨acc', hb, hx⟩ := hpar _ ⟨realm, hi, .inl ⟨e, he', rfl⟩⟩ old hold acc _ _
    refine ⟨acc', by rw [hold]; exact hb, fun x => ?_⟩
    rw [hx, rangeSnaps_iff_hasSnap hold]
  obtain ⟨acc₁, hfold, hx₁⟩ := foldlM_spec _ hvisit (acc.addRealm realm.srnode first last)
  rw [buildSnapSet, hfold]
  have hx₂ : ∀ x, x ∈ acc₁.s ↔ x ∈ acc.s ∨ (first ≤ x ∧ x ≤ last ∧ x ∈ realm.srnode.snaps) ∨
      ∃ e ∈ realm.srnode.pastParents,
        max first e.2.first ≤ x ∧ x ≤ min last e.1 ∧ HasSnap H e.2.ino x := by
    intro x
    rw [hx₁, mem_addRealm, exists_pastParentsIn_iff hwf, or_assoc]
  rcases hp : realm.parent with _ | q
  · refine ⟨acc₁, rfl, fun x => ?_⟩
    simp only [RangeSnaps, hp, reduceCtorEq, false_and, exists_false, or_false]
    exact hx₂ x
  · by_cases hs : realm.srnode.currentParentSince ≤ last
    · obtain ⟨pr, hpr⟩ := Option.isSome_iff_exists.1 (hwf.parent_open q hp)
      obtain ⟨acc₂, hb, hx⟩ := hpar q ⟨realm, hi, .inr hp⟩ pr hpr acc₁
        (max first realm.srnode.currentParentSince) last
      refine ⟨acc₂, by simp only [if_pos hs, hpr]; exact hb, fun x => ?_⟩
      rw [hx, rangeSnaps_iff_hasSnap hpr, hx₂]
      simp only [RangeSnaps, hp, Option.some.injEq, exists_eq_left', max_le_iff, or_assoc]
    · refine ⟨acc₁, by simp only [if_neg hs]; rfl, fun x => ?_⟩
      rw [hx₂]
      simp only [RangeSnaps, hp, Option.some.injEq, exists_eq_left', max_le_iff]
      have hnone : ¬ ((first ≤ x ∧ realm.srnode.currentParentSince ≤ x) ∧ x ≤ last ∧
          HasSnap H q x) := fun h => hs (by omega)
      simp only [hnone, or_false]

/-- Finitely many statements that each hold from some point on hold together from some point on. -/
theorem exists_forall_le_of_forall {P : ℕ → ℕ → Prop} :
    ∀ (l : List ℕ), (∀ j ∈ l, ∃ n, ∀ m, n ≤ m → P j m) → ∃ N, ∀ j ∈ l, ∀ m, N ≤ m → P j m
  | [], _ => ⟨0, by simp⟩
  | j :: l, h => by
    obtain ⟨n, hn⟩ := h j (List.mem_cons_self ..)
    obtain ⟨N, hN⟩ := exists_forall_le_of_forall l fun j' hj' => h j' (List.mem_cons_of_mem _ hj')
    refine ⟨max n N, fun j' hj' m hm => ?_⟩
    rcases List.mem_cons.1 hj' with rfl | hj'
    · exact hn m (le_of_max_le_left hm)
    · exact hN j' hj' m (le_of_max_le_right hm)

/-- The inodes of the parents a realm names, past and current. -/
def SnapRealm.parentInos (realm : SnapRealm) : List ℕ :=
  realm.srnode.pastParents.map (·.2.ino) ++ realm.parent.toList

theorem parentOf_iff {H : Realms} {i j : ℕ} {realm : SnapRealm} (hi : H i = some realm) :
    ParentOf H j i ↔ j ∈ realm.parentInos := by
  simp only [ParentOf, hi, Option.some.injEq, exists_eq_left', SnapRealm.parentInos,
    List.mem_append, List.mem_map, Option.mem_toList]

/-- Without a cycle of parents, `build_snap_set` meets its spec on every realm once the fuel
passes a bound: the induction follows the parents, and the bound of a realm is one more than
those of the parents it names. -/
theorem exists_buildSpec {H : Realms} (hwf : ∀ i realm, H i = some realm → realm.WellFormed H)
    (hwfd : WellFounded (ParentOf H)) (i : ℕ) : ∃ n, ∀ fuel, n ≤ fuel → BuildSpec H fuel i := by
  refine hwfd.induction (C := fun i => ∃ n, ∀ fuel, n ≤ fuel → BuildSpec H fuel i) i
    fun i ih => ?_
  rcases hHi : H i with _ | realm
  · exact ⟨0, fun _ _ realm h => by rw [hHi] at h; cases h⟩
  · obtain ⟨N, hN⟩ := exists_forall_le_of_forall (P := fun j m => BuildSpec H m j)
      realm.parentInos fun j hj => ih j ((parentOf_iff hHi).2 hj)
    refine ⟨N + 1, fun fuel hfuel => ?_⟩
    obtain ⟨f, rfl⟩ : ∃ f, fuel = f + 1 := ⟨fuel - 1, by omega⟩
    intro realm' hrealm'
    rw [hHi] at hrealm'
    cases hrealm'
    exact buildSnapSet_succ_spec hHi (hwf i realm hHi)
      (fun j hj => hN j ((parentOf_iff hHi).1 hj) f (by omega))

/-! ## check_cache and prune_past_parents -/

/-- The cache of the realm of `i` is accurate: when the cached sequence number has
caught up with the realm's own, the cached snaps are those up to `CEPH_NOSNAP` the realm sees. -/
def CacheFresh (H : Realms) (i : ℕ) (realm : SnapRealm) : Prop :=
  realm.srnode.seq ≤ realm.cachedSeq →
    ∀ x, x ∈ realm.cachedSnaps ↔ x ≤ cephNosnap ∧ HasSnap H i x

/-- `check_cache` leaves the stored state and the parent alone and caches the snaps up to
`CEPH_NOSNAP` the realm sees. -/
theorem checkCache_spec {H : Realms} {i fuel : ℕ} {realm : SnapRealm} (hi : H i = some realm)
    (hopen : realm.isOpen = true) (hcache : CacheFresh H i realm) (hbuild : BuildSpec H fuel i) :
    ∃ realm', checkCache H fuel realm = some realm' ∧ realm'.srnode = realm.srnode ∧
      realm'.parent = realm.parent ∧
      ∀ x, x ∈ realm'.cachedSnaps ↔ x ≤ cephNosnap ∧ HasSnap H i x := by
  unfold checkCache
  rw [if_neg (by simp [hopen])]
  split_ifs with hfresh
  · exact ⟨realm, rfl, rfl, rfl, hcache hfresh⟩
  · obtain ⟨acc', hb, hx⟩ := hbuild realm hi
      ⟨∅, realm.srnode.seq, realm.srnode.lastCreated, realm.srnode.lastDestroyed⟩ 0 cephNosnap
    rw [hb]
    refine ⟨_, rfl, rfl, rfl, fun x => ?_⟩
    rw [hx, rangeSnaps_iff_hasSnap hi]
    simp

theorem keepPastParent_iff (cached : Finset ℕ) (e : ℕ × SnaplinkT) :
    keepPastParent cached e = true ↔ ∃ c ∈ cached, e.2.first ≤ c ∧ c ≤ e.1 := by
  unfold keepPastParent
  split_ifs with hne
  · rw [decide_eq_true_iff]
    constructor
    · intro hle
      have hmin := Finset.mem_filter.1 (Finset.min'_mem _ hne)
      exact ⟨_, hmin.1, hmin.2, hle⟩
    · rintro ⟨c, hc, hfc, hck⟩
      exact (Finset.min'_le _ c (Finset.mem_filter.2 ⟨hc, hfc⟩)).trans hck
  · simp only [false_iff]
    rintro ⟨c, hc, hfc, -⟩
    exact hne ⟨c, Finset.mem_filter.2 ⟨hc, hfc⟩⟩

section Update

variable {H : Realms} {i : ℕ} {realm realm' : SnapRealm}

/-- `realm'` is `realm` with some of its past parents dropped. -/
structure DropsPastParents (realm realm' : SnapRealm) : Prop where
  snaps : realm'.srnode.snaps = realm.srnode.snaps
  parent : realm'.parent = realm.parent
  since : realm'.srnode.currentParentSince = realm.srnode.currentParentSince
  pastParents : realm'.srnode.pastParents.Sublist realm.srnode.pastParents

/-- The realm read at `j` after the update: the new one at `i`, the old one elsewhere. -/
theorem update_eq_some {j : ℕ} {r : SnapRealm} (h : Function.update H i (some realm') j = some r) :
    j = i ∧ r = realm' ∨ j ≠ i ∧ H j = some r := by
  by_cases hji : j = i
  · subst hji
    rw [Function.update_self, Option.some.injEq] at h
    exact .inl ⟨rfl, h.symm⟩
  · rw [Function.update_of_ne hji] at h
    exact .inr ⟨hji, h⟩

/-- A realm read before the update, read after it. -/
theorem eq_some_update (hi : H i = some realm) (r' : SnapRealm) {j : ℕ} {r : SnapRealm}
    (h : H j = some r) :
    j = i ∧ r = realm ∧ Function.update H i (some r') j = some r' ∨
      Function.update H i (some r') j = some r := by
  by_cases hji : j = i
  · subst hji
    rw [hi, Option.some.injEq] at h
    exact .inl ⟨rfl, h.symm, Function.update_self ..⟩
  · exact .inr ((Function.update_of_ne hji _ _).trans h)

/-- Dropping past parents loses snaps and adds none. -/
theorem hasSnap_of_update (hi : H i = some realm) (hd : DropsPastParents realm realm') :
    ∀ {j x}, HasSnap (Function.update H i (some realm')) j x → HasSnap H j x := by
  intro j x h
  induction h with
  | own hj hx =>
    rcases update_eq_some hj with ⟨rfl, rfl⟩ | ⟨-, hj⟩
    · exact .own hi (hd.snaps ▸ hx)
    · exact .own hj hx
  | past hj he hf hk _ ih =>
    rcases update_eq_some hj with ⟨rfl, rfl⟩ | ⟨-, hj⟩
    · exact .past hi (hd.pastParents.subset he) hf hk ih
    · exact .past hj he hf hk ih
  | current hj hq hs _ ih =>
    rcases update_eq_some hj with ⟨rfl, rfl⟩ | ⟨-, hj⟩
    · exact .current hi (hd.parent ▸ hq) (hd.since ▸ hs) ih
    · exact .current hj hq hs ih

/-- Dropping only past parents whose interval holds no snap up to `CEPH_NOSNAP` that the realm
sees keeps every such snap, in every realm. -/
theorem hasSnap_update (hi : H i = some realm) (hd : DropsPastParents realm realm')
    (hkeep : ∀ e ∈ realm.srnode.pastParents, ∀ x, e.2.first ≤ x → x ≤ e.1 → x ≤ cephNosnap →
      HasSnap H i x → e ∈ realm'.srnode.pastParents) :
    ∀ {j x}, HasSnap H j x → x ≤ cephNosnap → HasSnap (Function.update H i (some realm')) j x := by
  intro j x h
  induction h with
  | own hj hx =>
    intro _
    rcases eq_some_update hi realm' hj with ⟨rfl, rfl, hj'⟩ | hj'
    · exact .own hj' (hd.snaps ▸ hx)
    · exact .own hj' hx
  | @past j x r e hj he hf hk hp ih =>
    intro hx
    rcases eq_some_update hi realm' hj with ⟨rfl, rfl, hj'⟩ | hj'
    · exact .past hj' (hkeep e he x hf hk hx (.past hi he hf hk hp)) hf hk (ih hx)
    · exact .past hj' he hf hk (ih hx)
  | current hj hq hs _ ih =>
    intro hx
    rcases eq_some_update hi realm' hj with ⟨rfl, rfl, hj'⟩ | hj'
    · exact .current hj' (hd.parent.trans hq) (hd.since.trans_le hs) (ih hx)
    · exact .current hj' hq hs (ih hx)

theorem isSome_update {k : ℕ} (h : (H k).isSome) :
    (Function.update H i (some realm') k).isSome := by
  by_cases hki : k = i
  · subst hki
    rw [Function.update_self]
    rfl
  · rwa [Function.update_of_ne hki]

/-- A realm stays well-formed when every realm it names stays in the cache. -/
theorem SnapRealm.WellFormed.mono {H' : Realms} {r : SnapRealm} (hwf : r.WellFormed H)
    (hH : ∀ k, (H k).isSome → (H' k).isSome) : r.WellFormed H' where
  first_le := hwf.first_le
  disjoint := hwf.disjoint
  past_open e he := hH _ (hwf.past_open e he)
  parent_open q hq := hH _ (hwf.parent_open q hq)

theorem SnapRealm.WellFormed.of_drops (hwf : realm.WellFormed H)
    (hd : DropsPastParents realm realm') : realm'.WellFormed H where
  first_le e he := hwf.first_le e (hd.pastParents.subset he)
  disjoint := hwf.disjoint.sublist hd.pastParents
  past_open e he := hwf.past_open e (hd.pastParents.subset he)
  parent_open q hq := hwf.parent_open q (hd.parent ▸ hq)

theorem wellFormed_update (hi : H i = some realm) (hd : DropsPastParents realm realm')
    (hwf : ∀ j r, H j = some r → r.WellFormed H) :
    ∀ j r, Function.update H i (some realm') j = some r →
      r.WellFormed (Function.update H i (some realm')) := by
  intro j r hj
  refine SnapRealm.WellFormed.mono ?_ fun k => isSome_update
  rcases update_eq_some hj with ⟨rfl, rfl⟩ | ⟨-, hj⟩
  · exact (hwf _ _ hi).of_drops hd
  · exact hwf j r hj

/-- Dropping past parents adds no parent. -/
theorem parentOf_of_update (hi : H i = some realm) (hd : DropsPastParents realm realm') {j k : ℕ} :
    ParentOf (Function.update H i (some realm')) j k → ParentOf H j k := by
  rintro ⟨r, hk, hpar⟩
  rcases update_eq_some hk with ⟨rfl, rfl⟩ | ⟨-, hk⟩
  · refine ⟨realm, hi, hpar.imp ?_ fun hq => hd.parent ▸ hq⟩
    rintro ⟨e, he, hino⟩
    exact ⟨e, hd.pastParents.subset he, hino⟩
  · exact ⟨r, hk, hpar⟩

end Update

/-- `prune_past_parents` only drops past parents, and every realm sees the same snaps up to
`CEPH_NOSNAP` after it. -/
theorem prunePastParents_spec {H : Realms} {i fuel : ℕ} {realm : SnapRealm}
    (hi : H i = some realm) (hopen : realm.isOpen = true) (hcache : CacheFresh H i realm)
    (hbuild : BuildSpec H fuel i) :
    ∃ realm', prunePastParents H fuel realm = some realm' ∧ DropsPastParents realm realm' ∧
      ∀ j x, x ≤ cephNosnap → (HasSnap (Function.update H i (some realm')) j x ↔ HasSnap H j x) := by
  obtain ⟨r₁, hc, hsr, hpar, hmem⟩ := checkCache_spec hi hopen hcache hbuild
  have hd : DropsPastParents realm
      { r₁ with srnode := r₁.srnode.filterPastParents (keepPastParent r₁.cachedSnaps) } :=
    { snaps := show r₁.srnode.snaps = _ from congrArg SrT.snaps hsr
      parent := hpar
      since := show r₁.srnode.currentParentSince = _ from congrArg SrT.currentParentSince hsr
      pastParents := hsr ▸ List.filter_sublist }
  have hkeep : ∀ e ∈ realm.srnode.pastParents, ∀ x, e.2.first ≤ x → x ≤ e.1 →
      x ≤ cephNosnap → HasSnap H i x → e ∈ (r₁.srnode.pastParents.filter
        (keepPastParent r₁.cachedSnaps)) := by
    intro e he x hf hk hx hs
    rw [hsr]
    exact List.mem_filter.2 ⟨he, (keepPastParent_iff _ _).2 ⟨x, (hmem x).2 ⟨hx, hs⟩, hf, hk⟩⟩
  unfold prunePastParents
  rw [hc]
  exact ⟨_, rfl, hd, fun j x hx =>
    ⟨hasSnap_of_update hi hd, fun h => hasSnap_update hi hd hkeep h hx⟩⟩

/-- A finite cache with no cycle of parents has no endless descending chain of parents. -/
theorem wellFounded_parentOf {H : Realms} (hfin : {i | (H i).isSome}.Finite)
    (hacyc : ∀ i, ¬ Relation.TransGen (ParentOf H) i i) : WellFounded (ParentOf H) := by
  refine wellFounded_of_finite_acyclic (hfin.subset ?_) hacyc
  rintro a ⟨b, r, ha, -⟩
  simp [ha]

/-- On a finite cache with no cycle of parents whose realms are well-formed, `build_snap_set`
ends and adds what the realm sees within the range; and when the realm's cache is up to date,
after `prune_past_parents` every build of every realm over every range returns the same snaps up
to `CEPH_NOSNAP` as before. -/
theorem prunePastParents_keeps_snaps {H : Realms} (hfin : {i | (H i).isSome}.Finite)
    (hacyc : ∀ i, ¬ Relation.TransGen (ParentOf H) i i)
    (hwf : ∀ i realm, H i = some realm → realm.WellFormed H)
    {i : ℕ} {realm : SnapRealm} (hi : H i = some realm) (hopen : realm.isOpen = true)
    (hcache : CacheFresh H i realm) :
    (∀ j, ∃ n, ∀ fuel, n ≤ fuel → BuildSpec H fuel j) ∧
    ∃ n, ∀ fuel, n ≤ fuel → ∃ realm', prunePastParents H fuel realm = some realm' ∧
      ∀ j r r', H j = some r → Function.update H i (some realm') j = some r' →
        ∃ n', ∀ fuel', n' ≤ fuel' → ∀ acc first last, ∃ acc₁ acc₂,
          buildSnapSet (Function.update H i (some realm')) fuel' r' acc first last = some acc₁ ∧
          buildSnapSet H fuel' r acc first last = some acc₂ ∧
          ∀ x ≤ cephNosnap, x ∈ acc₁.s ↔ x ∈ acc₂.s := by
  have hwfd := wellFounded_parentOf hfin hacyc
  refine ⟨exists_buildSpec hwf hwfd, ?_⟩
  obtain ⟨n, hn⟩ := exists_buildSpec hwf hwfd i
  refine ⟨n, fun fuel hfuel => ?_⟩
  obtain ⟨realm', hp, hd, hsnap⟩ := prunePastParents_spec hi hopen hcache (hn fuel hfuel)
  have hwf' := wellFormed_update hi hd hwf
  have hwfd' : WellFounded (ParentOf (Function.update H i (some realm'))) :=
    Subrelation.wf (parentOf_of_update hi hd) hwfd
  refine ⟨realm', hp, fun j r r' hj hj' => ?_⟩
  obtain ⟨n₁, h₁⟩ := exists_buildSpec hwf' hwfd' j
  obtain ⟨n₂, h₂⟩ := exists_buildSpec hwf hwfd j
  refine ⟨max n₁ n₂, fun fuel' hfuel' acc first last => ?_⟩
  obtain ⟨acc₁, hb₁, hx₁⟩ := h₁ fuel' (le_of_max_le_left hfuel') r' hj' acc first last
  obtain ⟨acc₂, hb₂, hx₂⟩ := h₂ fuel' (le_of_max_le_right hfuel') r hj acc first last
  refine ⟨acc₁, acc₂, hb₁, hb₂, fun x hx => ?_⟩
  rw [hx₁, hx₂, rangeSnaps_iff_hasSnap hj', rangeSnaps_iff_hasSnap hj, hsnap j x hx]

/-! ## Two realms

Inode 2 on its own with one snap, and inode 1 whose only parent is inode 2, a past parent over
`[first, key]`. -/

def pastRealm (x : ℕ) : SnapRealm where
  srnode := ⟨0, 0, 0, 0, [x], [], List.pairwise_singleton _ _, List.Pairwise.nil⟩
  isOpen := true
  parent := none
  cachedSeq := 0
  cachedLastCreated := 0
  cachedLastDestroyed := 0
  cachedSnaps := ∅
  cachedSnapContext := ⟨0, []⟩

def childRealm (key first cachedSeq : ℕ) (cached : Finset ℕ) : SnapRealm where
  srnode := ⟨1, 0, 0, 0, [], [(key, ⟨2, first⟩)], List.Pairwise.nil, List.pairwise_singleton _ _⟩
  isOpen := true
  parent := none
  cachedSeq := cachedSeq
  cachedLastCreated := 0
  cachedLastDestroyed := 0
  cachedSnaps := cached
  cachedSnapContext := ⟨0, []⟩

def twoRealms (P R : SnapRealm) : Realms := fun i =>
  if i = 1 then some R else if i = 2 then some P else none

section TwoRealms

variable {x key first cachedSeq : ℕ} {cached : Finset ℕ}

theorem twoRealms_eq_some {P R r : SnapRealm} {i : ℕ} (h : twoRealms P R i = some r) :
    i = 1 ∧ r = R ∨ i = 2 ∧ r = P := by
  unfold twoRealms at h
  split_ifs at h with h1 h2
  · exact .inl ⟨h1, (Option.some.inj h).symm⟩
  · exact .inr ⟨h2, (Option.some.inj h).symm⟩

theorem finite_twoRealms (P R : SnapRealm) : {i | (twoRealms P R i).isSome}.Finite := by
  refine (Set.finite_le_nat 2).subset fun i hi => ?_
  obtain ⟨r, hr⟩ := Option.isSome_iff_exists.1 hi
  rcases twoRealms_eq_some hr with ⟨rfl, -⟩ | ⟨rfl, -⟩ <;> decide

/-- No realm of the two is its own ancestor: the child's only parent is the other one. -/
theorem acyclic_twoRealms :
    ∀ i, ¬ Relation.TransGen
      (ParentOf (twoRealms (pastRealm x) (childRealm key first cachedSeq cached))) i i := by
  let rank : ℕ → ℕ := fun i => if i = 1 then 1 else 0
  have hrank : ∀ j i, ParentOf (twoRealms (pastRealm x) (childRealm key first cachedSeq cached))
      j i → rank j < rank i := by
    intro j i hji
    obtain ⟨r, hi, hpar⟩ := hji
    have hj := (parentOf_iff hi).1 ⟨r, hi, hpar⟩
    rcases twoRealms_eq_some hi with ⟨rfl, rfl⟩ | ⟨rfl, rfl⟩
    · simp only [childRealm, SnapRealm.parentInos, List.map_cons, List.map_nil,
        Option.toList_none, List.append_nil, List.mem_singleton] at hj
      subst hj
      decide
    · simp [pastRealm, SnapRealm.parentInos] at hj
  intro i h
  have hlt := Relation.TransGen.lift (p := (· < ·)) rank hrank _ _ h
  rw [Relation.transGen_eq_self] at hlt
  exact lt_irrefl _ hlt

theorem wellFormed_twoRealms (h : first ≤ key) :
    ∀ i r, twoRealms (pastRealm x) (childRealm key first cachedSeq cached) i = some r →
      r.WellFormed (twoRealms (pastRealm x) (childRealm key first cachedSeq cached)) := by
  intro i r hr
  rcases twoRealms_eq_some hr with ⟨-, rfl⟩ | ⟨-, rfl⟩
  · refine ⟨?_, List.pairwise_singleton _ _, ?_, nofun⟩ <;>
      simp [childRealm, twoRealms, h]
  · exact ⟨nofun, List.Pairwise.nil, nofun, nofun⟩

end TwoRealms

/-- The child's cache is out of date, so `check_cache` rebuilds it and the past parent stays. -/
theorem prune_keeps_two_realms :
    let H := twoRealms (pastRealm 7) (childRealm 10 5 0 ∅)
    (∀ j, ∃ n, ∀ fuel, n ≤ fuel → BuildSpec H fuel j) ∧
    ∃ n, ∀ fuel, n ≤ fuel → ∃ realm', prunePastParents H fuel (childRealm 10 5 0 ∅) = some realm' ∧
      ∀ j r r', H j = some r → Function.update H 1 (some realm') j = some r' →
        ∃ n', ∀ fuel', n' ≤ fuel' → ∀ acc first last, ∃ acc₁ acc₂,
          buildSnapSet (Function.update H 1 (some realm')) fuel' r' acc first last = some acc₁ ∧
          buildSnapSet H fuel' r acc first last = some acc₂ ∧
          ∀ x ≤ cephNosnap, x ∈ acc₁.s ↔ x ∈ acc₂.s :=
  prunePastParents_keeps_snaps (finite_twoRealms _ _) acyclic_twoRealms
    (wellFormed_twoRealms (by decide)) rfl rfl fun h => absurd h (by decide)

/-- `prune_past_parents` loses snaps in two ways. A past parent whose only snap in its interval
lies above `CEPH_NOSNAP` is dropped, since `check_cache` builds over `[0, CEPH_NOSNAP]`, and the
build up to `2^64 - 1` loses it. A cache marked up to date that misses a past parent's snap
drops that parent too, and the build up to `CEPH_NOSNAP` loses the snap. -/
theorem prune_loses_snaps :
    (∃ realm', prunePastParents (twoRealms (pastRealm (2 ^ 64 - 1))
        (childRealm (2 ^ 64 - 1) 5 0 ∅)) 2 (childRealm (2 ^ 64 - 1) 5 0 ∅) = some realm' ∧
      (buildSnapSet (twoRealms (pastRealm (2 ^ 64 - 1)) (childRealm (2 ^ 64 - 1) 5 0 ∅)) 2
        (childRealm (2 ^ 64 - 1) 5 0 ∅) ⟨∅, 0, 0, 0⟩ 0 (2 ^ 64 - 1)).map SnapAcc.s =
          some {2 ^ 64 - 1} ∧
      (buildSnapSet (Function.update (twoRealms (pastRealm (2 ^ 64 - 1))
        (childRealm (2 ^ 64 - 1) 5 0 ∅)) 1 (some realm')) 2 realm' ⟨∅, 0, 0, 0⟩ 0
          (2 ^ 64 - 1)).map SnapAcc.s = some ∅) ∧
    ∃ realm', prunePastParents (twoRealms (pastRealm 7) (childRealm 10 5 1 ∅)) 2
        (childRealm 10 5 1 ∅) = some realm' ∧
      (buildSnapSet (twoRealms (pastRealm 7) (childRealm 10 5 1 ∅)) 2 (childRealm 10 5 1 ∅)
        ⟨∅, 0, 0, 0⟩ 0 cephNosnap).map SnapAcc.s = some {7} ∧
      (buildSnapSet (Function.update (twoRealms (pastRealm 7) (childRealm 10 5 1 ∅)) 1
        (some realm')) 2 realm' ⟨∅, 0, 0, 0⟩ 0 cephNosnap).map SnapAcc.s = some ∅ :=
  ⟨⟨_, rfl, by decide, by decide⟩, ⟨_, rfl, by decide, by decide⟩⟩

end Lunule.Snap
