import Mathlib.Data.Finset.Max
import Mathlib.Data.Finset.Sort

/-!
Snap realms (`SnapRealm.cc`, `snap.h`). A realm sees its own snapshots and those of each realm
that was its parent, while it was: `past_parents` maps the last snap id of each former parent's
interval to the parent's inode and the interval's first id, and the current parent counts from
`current_parent_since` on. `build_snap_set` collects these snapshots over a range of snap ids
with the largest sequence numbers met, `check_cache` keeps them over `[0, CEPH_NOSNAP]`, and
`prune_past_parents` drops each former parent whose interval holds no cached snap.

Snap ids (`snapid_t`) are natural numbers: the functions only compare them. The realms of the
inodes in the metadata cache (`MDCache::get_inode(ino)->snaprealm`) are a function from inode
numbers, and the current parent pointer is the parent realm's inode number. The maps of `sr_t`
are lists sorted by key. The recursion over parents carries fuel, which runs out only along an
endless chain of parents.
-/

namespace Lunule.Snap

/-- `CEPH_NOSNAP`, `(__u64)(-2)`: the head revision. -/
def cephNosnap : ℕ := 2 ^ 64 - 2

structure SnaplinkT where
  ino : ℕ
  first : ℕ
deriving DecidableEq, Repr

/-- `sr_t`: the stored state of a realm. `snaps` keeps the keys of the `SnapInfo` map, whose
values no modelled function reads; `past_parents` is keyed by the last snap id of the interval. -/
structure SrT where
  seq : ℕ
  lastCreated : ℕ
  lastDestroyed : ℕ
  currentParentSince : ℕ
  snaps : List ℕ
  pastParents : List (ℕ × SnaplinkT)
  snaps_sorted : snaps.Pairwise (· < ·)
  pastParents_sorted : (pastParents.map Prod.fst).Pairwise (· < ·)

/-- `SnapContext`: a sequence number and the snaps, newest first. -/
structure SnapContext where
  seq : ℕ
  snaps : List ℕ
deriving DecidableEq, Repr

/-- The realm state `build_snap_set`, `check_cache` and `prune_past_parents` read and write. -/
structure SnapRealm where
  srnode : SrT
  isOpen : Bool
  parent : Option ℕ
  cachedSeq : ℕ
  cachedLastCreated : ℕ
  cachedLastDestroyed : ℕ
  cachedSnaps : Finset ℕ
  cachedSnapContext : SnapContext

/-- The realms of the cached inodes, by inode number. -/
abbrev Realms := ℕ → Option SnapRealm

/-- The four arguments `build_snap_set` fills by reference. -/
structure SnapAcc where
  s : Finset ℕ
  maxSeq : ℕ
  maxLastCreated : ℕ
  maxLastDestroyed : ℕ

/-- The keys of a sorted map from `lower_bound(first)` on, while at most `last`. -/
def keysIn (keys : List ℕ) (first last : ℕ) : List ℕ :=
  (keys.dropWhile fun k => decide (k < first)).takeWhile fun k => decide (k ≤ last)

/-- The past parents `build_snap_set` visits: from `lower_bound(first)` on, while the key is at
least `first` and the interval starts by `last`. -/
def pastParentsIn (pp : List (ℕ × SnaplinkT)) (first last : ℕ) : List (ℕ × SnaplinkT) :=
  (pp.dropWhile fun e => decide (e.1 < first)).takeWhile
    fun e => decide (first ≤ e.1) && decide (e.2.first ≤ last)

/-- The first part of `build_snap_set`: the three maxima, then my snaps within `[first, last]`. -/
def SnapAcc.addRealm (acc : SnapAcc) (sr : SrT) (first last : ℕ) : SnapAcc where
  s := acc.s ∪ (keysIn sr.snaps first last).toFinset
  maxSeq := max acc.maxSeq sr.seq
  maxLastCreated := max acc.maxLastCreated sr.lastCreated
  maxLastDestroyed := max acc.maxLastDestroyed sr.lastDestroyed

/-- `SnapRealm::build_snap_set`: `none` when a parent has no realm in the cache (the source
asserts) or the fuel runs out. -/
def buildSnapSet (H : Realms) : ℕ → SnapRealm → SnapAcc → ℕ → ℕ → Option SnapAcc
  | 0, _, _, _, _ => none
  | fuel + 1, realm, acc, first, last => do
    let acc := acc.addRealm realm.srnode first last
    let acc ← (pastParentsIn realm.srnode.pastParents first last).foldlM
      (fun acc e => do
        let oldparent ← H e.2.ino
        buildSnapSet H fuel oldparent acc (max first e.2.first) (min last e.1)) acc
    match realm.parent with
    | some q =>
      if realm.srnode.currentParentSince ≤ last then do
        let parent ← H q
        buildSnapSet H fuel parent acc (max first realm.srnode.currentParentSince) last
      else some acc
    | none => some acc

/-- `SnapRealm::check_cache`: rebuilds the cache over `[0, CEPH_NOSNAP]` when the realm's own
sequence number has passed the cached one. `none` where the source asserts. -/
def checkCache (H : Realms) (fuel : ℕ) (realm : SnapRealm) : Option SnapRealm :=
  if realm.isOpen = false then none
  else if realm.srnode.seq ≤ realm.cachedSeq then some realm
  else do
    let acc ← buildSnapSet H fuel realm
      ⟨∅, realm.srnode.seq, realm.srnode.lastCreated, realm.srnode.lastDestroyed⟩ 0 cephNosnap
    some { realm with
      cachedSnaps := acc.s
      cachedSeq := acc.maxSeq
      cachedLastCreated := acc.maxLastCreated
      cachedLastDestroyed := acc.maxLastDestroyed
      cachedSnapContext := ⟨0, []⟩ }

/-- `SnapRealm::get_snaps`. -/
def getSnaps (H : Realms) (fuel : ℕ) (realm : SnapRealm) : Option (SnapRealm × Finset ℕ) := do
  let realm ← checkCache H fuel realm
  some (realm, realm.cachedSnaps)

/-- `SnapRealm::get_snap_context`: the cached snaps in decreasing order, filled in once. -/
def getSnapContext (H : Realms) (fuel : ℕ) (realm : SnapRealm) :
    Option (SnapRealm × SnapContext) := do
  let realm ← checkCache H fuel realm
  let ctx : SnapContext :=
    if realm.cachedSnapContext.seq = 0 then ⟨realm.cachedSeq, realm.cachedSnaps.sort (· ≥ ·)⟩
    else realm.cachedSnapContext
  some ({ realm with cachedSnapContext := ctx }, ctx)

/-- Whether `prune_past_parents` keeps the past parent `e`: `cached_snaps.lower_bound(first)` is
a snap that lies within the interval. -/
def keepPastParent (cached : Finset ℕ) (e : ℕ × SnaplinkT) : Bool :=
  if h : (cached.filter (e.2.first ≤ ·)).Nonempty then
    decide ((cached.filter (e.2.first ≤ ·)).min' h ≤ e.1)
  else false

/-- The stored state with only the past parents that pass a test. -/
def SrT.filterPastParents (sr : SrT) (p : ℕ × SnaplinkT → Bool) : SrT :=
  { sr with
    pastParents := sr.pastParents.filter p
    pastParents_sorted := sr.pastParents_sorted.sublist ((List.filter_sublist).map _) }

/-- `SnapRealm::prune_past_parents`. The pins of the dropped parents
(`remove_open_past_parent`) are not modelled. -/
def prunePastParents (H : Realms) (fuel : ℕ) (realm : SnapRealm) : Option SnapRealm := do
  let realm ← checkCache H fuel realm
  some { realm with srnode := realm.srnode.filterPastParents (keepPastParent realm.cachedSnaps) }

end Lunule.Snap
