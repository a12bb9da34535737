import Mathlib.Tactic.FieldSimp
import Lunule.OrdMap
import Lunule.Density

/-!
The load vector of `MDBalancer::prep_rebalance`, and of `handle_ifbeat`, through
`MDBalancer::calc_mds_load`. `calc_mds_load(load, auth)` takes a rank's report but sums
`CDir::get_load` over the full-auth subtrees of the local cache, and then reads the root's
`alpha_beta`. `prep_rebalance` rescales by `load_fac`, the local ratio of two such calls,
stores `calc_mds_load(mds_load[i]) * load_fac` for every in-rank `i`, takes their mean as
`target_load`, and makes the ranks below it importers.
-/

namespace Lunule.Rebalance

open Density

/-- The part of `mds_load_t` a report carries that the balancer compares: its meta load
and `req_rate`. -/
structure MdsLoad where
  metaLoad : ℚ
  reqRate : ℤ
  deriving DecidableEq, Repr

/-- What `calc_mds_load` reads of the local MDS: the cache root, if there is one, and the
full-auth subtree roots, each as dirfrag `j` of the inode at `p` with whether it is
freezing, frozen or under a stray inode. -/
structure LocalCache where
  root : Option Inode
  subtrees : List (ℕ × Path × Bool)

/-- The loop of `calc_mds_load`: `get_load` of every subtree root that is not skipped. -/
def subtreeLoads (epoch : ℤ) : Inode → List (ℕ × Path × Bool) → Option (Inode × ℚ)
  | r, [] => some (r, 0)
  | r, (j, p, skip) :: ts =>
    if skip then subtreeLoads epoch r ts
    else (getLoadAt epoch j p r).bind fun a =>
      (subtreeLoads epoch a.1 ts).map fun b => (b.1, a.2 + b.2)

/-- `calc_mds_load(load, auth)`: `0` without a root; otherwise the loads of the local
subtrees, after which the root's `alpha_beta` is taken and dropped. The report `load` and
`auth` are not read. -/
def calcMdsLoad (epoch : ℤ) (c : LocalCache) (_load : MdsLoad) (_auth : Bool) :
    Option (LocalCache × ℚ) :=
  match c.root with
  | none => some (c, 0)
  | some r => (subtreeLoads epoch r c.subtrees).map fun a =>
      (⟨some (a.1.alphaBeta epoch).1, c.subtrees⟩, a.2)

section Prep

variable {σ : Type} (loadOf : σ → MdsLoad → Bool → Option (σ × ℚ))

/-- `load_fac` of `prep_rebalance`: `calc_mds_load(m, true) / calc_mds_load(m)` of the rank's
own report `m` when `calc_mds_load(m) > 0`, else `1`. -/
def loadFactor (mdsLoad : List (ℕ × MdsLoad)) (whoami : ℕ) (s : σ) : Option (σ × ℚ) :=
  match OrdMap.find? mdsLoad whoami with
  | some m => (loadOf s m false).bind fun a =>
    if a.2 > 0 then
      (loadOf a.1 m true).bind fun b =>
        (loadOf b.1 m false).map fun c => (c.1, b.2 / c.2)
    else some (a.1, 1)
  | none => some (s, 1)

/-- The loop of `prep_rebalance` over the in-ranks: `calc_mds_load(mds_load[i]) * load_fac`,
a missing report being the fresh `mds_load_t` that `insert` puts in its place. -/
def metaLoads (fresh : MdsLoad) (mdsLoad : List (ℕ × MdsLoad)) (fac : ℚ) (ranks : List ℕ)
    (s : σ) (acc : List ℚ) : Option (σ × List ℚ) :=
  ranks.foldlM (fun a i => (loadOf a.1 ((OrdMap.find? mdsLoad i).getD fresh) false).map
    fun b => (b.1, a.2 ++ [b.2 * fac])) (s, acc)

/-- The entries `mds_meta_load[i]`, `target_load` as their mean, and the importers, the
ranks whose entry is below it. -/
def prepLoads (fresh : MdsLoad) (whoami n : ℕ) (mdsLoad : List (ℕ × MdsLoad)) (s : σ) :
    Option (σ × List ℚ × ℚ × List ℕ) :=
  (loadFactor loadOf mdsLoad whoami s).bind fun f =>
    (metaLoads loadOf fresh mdsLoad f.2 (List.range n) f.1 []).map fun r =>
      let target := r.2.sum / (n : ℚ)
      (r.1, r.2, target, (List.range n).filter fun i => r.2.getD i 0 < target)

variable {loadOf} {s : σ} {v : ℚ}

theorem loadFactor_of_settled (hcalc : ∀ l a, loadOf s l a = some (s, v))
    (mdsLoad : List (ℕ × MdsLoad)) (whoami : ℕ) : loadFactor loadOf mdsLoad whoami s = some (s, 1) := by
  unfold loadFactor
  split
  · rw [hcalc, Option.bind_some]
    dsimp only
    split_ifs with hv
    · rw [hcalc, Option.bind_some, hcalc, Option.map_some, div_self hv.ne']
    · rfl
  · rfl

theorem metaLoads_of_settled (hcalc : ∀ l a, loadOf s l a = some (s, v)) (fresh : MdsLoad)
    (mdsLoad : List (ℕ × MdsLoad)) (fac : ℚ) :
    ∀ (ranks : List ℕ) (acc : List ℚ),
      metaLoads loadOf fresh mdsLoad fac ranks s acc =
        some (s, acc ++ List.replicate ranks.length (v * fac))
  | [], acc => by simp [metaLoads]
  | i :: ranks, acc => by
    have ih := metaLoads_of_settled hcalc fresh mdsLoad fac ranks (acc ++ [v * fac])
    rw [List.append_assoc, List.singleton_append, ← List.replicate_succ] at ih
    unfold metaLoads at ih ⊢
    rw [List.foldlM_cons, hcalc]
    exact ih

/-- A load function that has settled in the epoch answers the same value for every report:
every rank then gets the same entry, `target_load` is that entry, and no rank is an
importer, whatever the reports say. -/
theorem prepLoads_of_settled (hcalc : ∀ l a, loadOf s l a = some (s, v)) (fresh : MdsLoad)
    (whoami : ℕ) {n : ℕ} (hn : 0 < n) (mdsLoad : List (ℕ × MdsLoad)) :
    prepLoads loadOf fresh whoami n mdsLoad s = some (s, List.replicate n v, v, []) := by
  unfold prepLoads
  rw [loadFactor_of_settled hcalc, Option.bind_some, metaLoads_of_settled hcalc, Option.map_some]
  dsimp only
  have hmean : (List.replicate (List.range n).length (v * 1)).sum / (n : ℚ) = v := by
    have hn' : (n : ℚ) ≠ 0 := by exact_mod_cast hn.ne'
    rw [List.sum_replicate, List.length_range, nsmul_eq_mul, mul_one]
    field_simp
  have hnone : ((List.range n).filter fun i =>
      decide ((List.replicate (List.range n).length (v * 1)).getD i 0 < v)) = [] := by
    rw [List.filter_eq_nil_iff]
    intro i hi
    rw [List.mem_range] at hi
    simp [List.getD_eq_getElem?_getD, hi]
  rw [List.nil_append, hmean, hnone, List.length_range, mul_one]

end Prep

/-- A local cache whose one subtree root got a potential of `4` in epoch 1. -/
def potentialCache : LocalCache := ⟨updateDirPotAt 1 0 4 4 0 [] inodeWithDir, [(0, [], false)]⟩

/-- Two in-ranks report meta loads `10` and `90`; in epoch 2 `prep_rebalance` on rank 0
gives both the entry `2/5` computed from its own cache, so `target_load` is `2/5` and no
rank is an importer, though rank 0 reported less than the mean `50`. -/
theorem meta_loads_ignore_reports :
    (prepLoads (calcMdsLoad 2) ⟨0, 0⟩ 0 2 [(0, ⟨10, 0⟩), (1, ⟨90, 0⟩)] potentialCache).map
        (fun r => (r.2.1, r.2.2.1, r.2.2.2)) =
      some ([2 / 5, 2 / 5], 2 / 5, []) := by
  decide +kernel

end Lunule.Rebalance
