import Mathlib.Algebra.Order.Field.Rat
import Mathlib.Tactic.FieldSimp
import Mathlib.Tactic.Ring
import Lunule.ReqCounter

/-!
The per-inode and per-dirfrag bookkeeping Lunule adds to the metadata cache
(`CInode.cc`, `CDir.cc`, `adsl/mdstypes.cc`). Each `CInode` keeps a `ReqCounter` of the
epochs it was requested in, the counts `newoldhit` of first requests that were old and new in
the current epoch with the counts `last_newoldhit` of the epoch it rolled over from, and a
memo `subtree_size` of the number of dentries below it. Each `CDir` keeps the memo
`num_dentries_auth_subtree_nested` and the potential loads `pot_auth` and `pot_all`. Both
kinds of memo are keyed on a `beat_epoch` of their own, and the inode's key is shared with
the hit counters.

The cache is a tree: an inode holds its open dirfrags, a dirfrag its dentries, and a
primary dentry the inode it links. An inode below another is reached by a path: at each
level the index of the dirfrag and of the dentry in it. Floating-point values are kept
exactly, as rationals.
-/

namespace Lunule.Density

/-- `dirfrag_pot_load_t`: the potential load of this epoch and of the last one. -/
structure PotLoad where
  value : ℚ
  lastValue : ℚ
  lastEpoch : ℤ
  deriving DecidableEq, Repr

namespace PotLoad

def init : PotLoad := ⟨0, 0, -1⟩

/-- `_update_epoch`: a later epoch keeps a quarter of the value, and the value as the last
one if it is the next epoch. -/
def updateEpoch (p : PotLoad) (epoch : ℤ) : PotLoad :=
  if epoch > p.lastEpoch then ⟨p.value / 4, if epoch - p.lastEpoch = 1 then p.value else 0, epoch⟩
  else p

def adjust (p : PotLoad) (adj : ℚ) (epoch : ℤ) : PotLoad :=
  let p := p.updateEpoch epoch
  { p with value := p.value + adj }

/-- `add(anotherpot)`: nothing if this record is at a later epoch; otherwise it is brought to
the other's epoch and takes its value (not its last value). -/
def add (p q : PotLoad) : PotLoad :=
  if p.lastEpoch > q.lastEpoch then p else p.adjust q.value q.lastEpoch

/-- `pot_load(epoch, use_current)`: a positive epoch is brought in first. -/
def potLoad (p : PotLoad) (epoch : ℤ) (useCurrent : Bool) : PotLoad × ℚ :=
  let p := if epoch > 0 then p.updateEpoch epoch else p
  (p, if useCurrent then p.value else p.lastValue)

end PotLoad

/-- The fields of a `CInode` this bookkeeping reads and writes. The pairs are indexed by
what `hit()` returns: `0` for an old inode, `1` for a new one. -/
structure InodeSt where
  hitcount : ReqCounter
  newoldhit : ℤ × ℤ
  lastNewoldhit : ℤ × ℤ
  subtreeSize : ℤ
  beatEpoch : ℤ
  deriving DecidableEq, Repr

/-- The fields of a `CDir` this bookkeeping reads and writes. -/
structure DirSt where
  auth : Bool
  numDentriesNested : ℤ
  numDentriesAuthSubtree : ℤ
  numDentriesAuthSubtreeNested : ℤ
  beatEpoch : ℤ
  potAuth : PotLoad
  potAll : PotLoad
  deriving DecidableEq, Repr

mutual
/-- A `CInode` with the dirfrags it has open. -/
inductive Inode where
  | mk (st : InodeSt) (dirfrags : List Dir)
/-- A `CDir` with its dentries. -/
inductive Dir where
  | mk (st : DirSt) (items : List Dentry)
/-- The linkage of a dentry. -/
inductive Dentry where
  | null
  | remote
  | primary (i : Inode)
end

/-- The `CInode` constructor: no counts, `subtree_size(0)`, `beat_epoch(-1)`; its
`hitcount` keeps what the storage held in `_last_hit` and `_cache_hit_times`. -/
def InodeSt.new (lastHit : Bool) (cacheHitTimes : ℤ) : InodeSt :=
  ⟨ReqCounter.new lastHit cacheHitTimes, (0, 0), (0, 0), 0, -1⟩

/-- The `CDir` constructor: no dentries counted and fresh potentials; `beat_epoch` is not
initialised and keeps what the storage held. -/
def DirSt.new (auth : Bool) (beatEpoch : ℤ) : DirSt :=
  ⟨auth, 0, 0, 0, beatEpoch, PotLoad.init, PotLoad.init⟩

namespace Inode

def st : Inode → InodeSt
  | mk s _ => s

def dirfrags : Inode → List Dir
  | mk _ d => d

end Inode

/-- The inode a primary dentry links. -/
def Dentry.inode? : Dentry → Option Inode
  | .primary i => some i
  | _ => none

namespace Dir

def st : Dir → DirSt
  | mk s _ => s

def items : Dir → List Dentry
  | mk _ i => i

/-- `get_num_any()`: the number of dentries. -/
def numAny (d : Dir) : ℤ := d.items.length

end Dir

/-! ### Epochs and hits of an inode -/

/-- `newoldhit[newold]++`. -/
def bump (p : ℤ × ℤ) (newold : ℤ) : ℤ × ℤ :=
  if newold = 0 then (p.1 + 1, p.2) else (p.1, p.2 + 1)

namespace InodeSt

/-- `CInode::maybe_update_epoch(epoch)`: a later epoch rolls the counters over; the epoch is
stored whatever it is. Returns how many epochs passed, or `2` for an earlier epoch. -/
def maybeUpdateEpoch (st : InodeSt) (epoch : ℤ) : InodeSt × ℤ :=
  let ret := epoch - st.beatEpoch
  let st' := if epoch > st.beatEpoch then
    { st with hitcount := st.hitcount.switchEpoch (epoch - st.beatEpoch),
              lastNewoldhit := st.newoldhit, newoldhit := (0, 0) }
  else st
  ({ st' with beatEpoch := epoch }, if ret < 0 then 2 else ret)

/-- The part of `CInode::hit(check_epoch, epoch)` done on the inode itself. -/
def hit (st : InodeSt) (checkEpoch : Bool) (epoch : ℤ) : InodeSt × ℤ :=
  let u := if checkEpoch then st.maybeUpdateEpoch epoch else (st, 0)
  if u.2 < 0 then (u.1, -2)
  else
    let r := u.1.hitcount.hit
    if r.1 < 0 then ({ u.1 with hitcount := r.2 }, r.1)
    else ({ u.1 with hitcount := r.2, newoldhit := bump u.1.newoldhit r.1 }, r.1)

end InodeSt

/-! ### The auth-subtree sizes -/

mutual
/-- `CInode::get_authsubtree_size_slow(epoch)`: the memo unless the epoch is a multiple of
three or `maybe_update_epoch` finds no new epoch; otherwise the sizes of the auth dirfrags. -/
def Inode.sizeSlow (epoch : ℤ) : Inode → Inode × ℤ
  | .mk st dfs =>
    if epoch % 3 = 0 then (.mk st dfs, st.subtreeSize)
    else
      let u := st.maybeUpdateEpoch epoch
      if u.2 ≤ 0 then (.mk u.1 dfs, u.1.subtreeSize)
      else
        let r := dirsSizeSlow epoch dfs
        (.mk { u.1 with subtreeSize := r.2 } r.1, r.2)

/-- The loop of `CInode::get_authsubtree_size_slow` over the dirfrags. -/
def dirsSizeSlow (epoch : ℤ) : List Dir → List Dir × ℤ
  | [] => ([], 0)
  | d :: ds =>
    let a := if d.st.auth then d.sizeSlow epoch else (d, 0)
    let b := dirsSizeSlow epoch ds
    (a.1 :: b.1, a.2 + b.2)

/-- `CDir::get_authsubtree_size_slow(epoch)`: the memo for an epoch not later than the one
it was taken in; otherwise the dentries and the sizes of the primary-linked inodes. -/
def Dir.sizeSlow (epoch : ℤ) : Dir → Dir × ℤ
  | .mk st items =>
    if epoch ≤ st.beatEpoch then (.mk st items, st.numDentriesAuthSubtreeNested)
    else
      let r := itemsSizeSlow epoch items
      let n := r.2 + items.length
      (.mk { st with beatEpoch := epoch, numDentriesAuthSubtreeNested := n } r.1, n)

/-- The loop of `CDir::get_authsubtree_size_slow` over the dentries. -/
def itemsSizeSlow (epoch : ℤ) : List Dentry → List Dentry × ℤ
  | [] => ([], 0)
  | .primary i :: ds =>
    let a := i.sizeSlow epoch
    let b := itemsSizeSlow epoch ds
    (.primary a.1 :: b.1, a.2 + b.2)
  | d :: ds =>
    let b := itemsSizeSlow epoch ds
    (d :: b.1, b.2)
end

mutual
/-- What the auth-subtree size of an inode stands for: the dentries of its auth dirfrags and,
below each primary one, the size of the inode it links. -/
def Inode.size : Inode → ℤ
  | .mk _ dfs => dirsSize dfs

def dirsSize : List Dir → ℤ
  | [] => 0
  | d :: ds => (if d.st.auth then d.size else 0) + dirsSize ds

def Dir.size : Dir → ℤ
  | .mk _ items => items.length + itemsSize items

def itemsSize : List Dentry → ℤ
  | [] => 0
  | .primary i :: ds => i.size + itemsSize ds
  | _ :: ds => itemsSize ds
end

/-- `CDir::_maybe_update_epoch(epoch)`: a later epoch is stored, and the memo is then read
back through `get_authsubtree_size_slow`, which finds it current. -/
def Dir.maybeUpdateEpoch (epoch : ℤ) : Dir → Dir
  | .mk st items =>
    if epoch > st.beatEpoch then
      let d : Dir := .mk { st with beatEpoch := epoch } items
      let r := d.sizeSlow epoch
      .mk { r.1.st with numDentriesAuthSubtreeNested := r.2 } r.1.items
    else .mk st items

/-- The part of `CDir::inc_density` done on the dirfrag itself. -/
def Dir.incDensity (nested authSubtree authSubtreeNested epoch : ℤ) (d : Dir) : Dir :=
  match d.maybeUpdateEpoch epoch with
  | .mk st items =>
    .mk { st with numDentriesNested := st.numDentriesNested + nested,
                  numDentriesAuthSubtree := st.numDentriesAuthSubtree + authSubtree,
                  numDentriesAuthSubtreeNested :=
                    st.numDentriesAuthSubtreeNested + authSubtreeNested } items

/-! ### Operations at a place in the tree -/

/-- Where an inode is below another: at each level the index of the dirfrag and of the
dentry in it, whose primary linkage leads on. -/
abbrev Path := List (ℕ × ℕ)

/-- Run `f` on the inode at `p` and rebuild the tree above it, passing its result to each
inode on the way up through `up` and to each dirfrag on the way up through `upDir`. A path
that does not lead to an inode is `none`. -/
def atPath {α : Type} (f : Inode → Option (Inode × α)) (up : α → InodeSt → InodeSt)
    (upDir : α → Dir → Dir) : Path → Inode → Option (Inode × α)
  | [], i => f i
  | (j, k) :: p, .mk st dfs =>
    match dfs[j]? with
    | some (.mk dst items) =>
      match items[k]? with
      | some (.primary c) =>
        (atPath f up upDir p c).map fun r =>
          (.mk (up r.2 st) (dfs.set j (upDir r.2 (.mk dst (items.set k (.primary r.1))))), r.2)
      | _ => none
    | none => none

/-- `CInode::hit(check_epoch, epoch)` on the inode at `p`: the inode's own counter decides
old or new, and the count goes to it and to every inode above it. -/
def hitAt (checkEpoch : Bool) (epoch : ℤ) (p : Path) (root : Inode) : Option (Inode × ℤ) :=
  atPath (fun i => match i with
      | .mk st dfs => let r := st.hit checkEpoch epoch; some (.mk r.1 dfs, r.2))
    (fun newold st => if newold < 0 then st else { st with newoldhit := bump st.newoldhit newold })
    (fun _ d => d) p root

/-- `CInode::alpha_beta(epoch)`: the old share of the counted first hits and the share of the
subtree that is not old, each at least `0.1`, read after the size and the epoch are brought
up to date. Also returns the pair `last_newoldhit` it read. -/
def Inode.alphaBeta (epoch : ℤ) (i : Inode) : Inode × (ℚ × ℚ) × (ℤ × ℤ) :=
  let r := i.sizeSlow epoch
  let u := r.1.st.maybeUpdateEpoch epoch
  let oldcnt := u.1.lastNewoldhit.1
  let newcnt := u.1.lastNewoldhit.2
  let total := oldcnt + newcnt
  let alpha : ℚ := if total ≠ 0 then (oldcnt : ℚ) / (oldcnt + newcnt) else 0
  let beta : ℚ := if r.2 ≠ 0 then ((r.2 - oldcnt : ℤ) : ℚ) / r.2 else 0
  let beta := if beta ≤ 1 / 10 then 1 / 10 else beta
  let alpha := if alpha ≤ 1 / 10 then 1 / 10 else alpha
  (.mk u.1 r.1.dirfrags, (alpha, beta), (oldcnt, newcnt))

/-- `alpha_beta(epoch)` on the inode at `p`. -/
def alphaBetaAt (epoch : ℤ) (p : Path) (root : Inode) : Option (Inode × (ℚ × ℚ) × (ℤ × ℤ)) :=
  atPath (fun i => some (i.alphaBeta epoch)) (fun _ st => st) (fun _ d => d) p root

/-- `get_authsubtree_size_slow(epoch)` on the inode at `p`. -/
def sizeSlowAt (epoch : ℤ) (p : Path) (root : Inode) : Option (Inode × ℤ) :=
  atPath (fun i => some (i.sizeSlow epoch)) (fun _ st => st) (fun _ d => d) p root

/-- `CDir::add_null_dentry` on dirfrag `j` of the inode at `p`: the dentry is added and
`inc_density(1, 0, is_auth())` runs on the dirfrag and on every dirfrag above it, with the
default epoch `-1`. -/
def addNullDentryAt (j : ℕ) (p : Path) (root : Inode) : Option Inode :=
  (atPath (fun i => match i with
      | .mk st dfs =>
        match dfs[j]? with
        | some (.mk dst items) =>
          let a : ℤ := if dst.auth then 1 else 0
          some (.mk st (dfs.set j ((Dir.mk dst (items ++ [.null])).incDensity 1 0 a (-1))), a)
        | none => none)
    (fun _ st => st) (fun a d => d.incDensity 1 0 a (-1)) p root).map Prod.fst

/-- The counts `add_primary_dentry` passes to `inc_density` for a dentry linking `c` into a
dirfrag that is auth or not: the dentry itself and the nested counts of `c`'s dirfrags. -/
def primaryDelta (auth : Bool) (c : Inode) : ℤ × ℤ × ℤ :=
  c.dirfrags.foldl (fun t d =>
      (t.1 + d.st.numDentriesNested,
        if d.st.auth then t.2.1 + 1 else t.2.1,
        if d.st.auth then t.2.2 + d.st.numDentriesAuthSubtreeNested else t.2.2))
    (1, 0, if auth then 1 else 0)

/-- `CDir::add_primary_dentry` on dirfrag `j` of the inode at `p`, linking the inode `c`. -/
def addPrimaryDentryAt (j : ℕ) (p : Path) (c : Inode) (root : Inode) : Option Inode :=
  (atPath (fun i => match i with
      | .mk st dfs =>
        match dfs[j]? with
        | some (.mk dst items) =>
          let δ := primaryDelta dst.auth c
          some (.mk st (dfs.set j
            ((Dir.mk dst (items ++ [.primary c])).incDensity δ.1 δ.2.1 δ.2.2 (-1))), δ)
        | none => none)
    (fun _ st => st) (fun δ d => d.incDensity δ.1 δ.2.1 δ.2.2 (-1)) p root).map Prod.fst

/-- `CDir::get_load` of dirfrag `j` of the inode at `p` in the balancer's epoch: the dirfrag
takes the epoch, its inode's `alpha_beta` is read in the dirfrag's epoch, and the load is
`alpha` times the old hits plus `beta` times the dirfrag's potential of the last epoch. -/
def getLoadAt (epoch : ℤ) (j : ℕ) (p : Path) (root : Inode) : Option (Inode × ℚ) :=
  atPath (fun i => match i with
      | .mk st dfs =>
        match dfs[j]? with
        | some d =>
          let d := d.maybeUpdateEpoch epoch
          let r := (Inode.mk st (dfs.set j d)).alphaBeta d.st.beatEpoch
          match r.1.dirfrags[j]? with
          | some (.mk dst items) =>
            let pot := dst.potAuth.potLoad epoch false
            let load := r.2.1.1 * r.1.st.lastNewoldhit.1 + r.2.1.2 * pot.2
            some (.mk r.1.st (r.1.dirfrags.set j (.mk { dst with potAuth := pot.1 } items)), load)
          | none => none
        | none => none)
    (fun _ st => st) (fun _ d => d) p root

/-! ### Potential propagation (`MDBalancer::update_dir_pot_recur`) -/

/-- The first loop of `update_dir_pot_recur`: `brocount` adds the dirfrag's own
`get_authsubtree_size_slow`, once per dentry. -/
def brocountLoop (epoch : ℤ) : ℕ → Dir → Dir × ℤ
  | 0, d => (d, 0)
  | n + 1, d =>
    let a := d.sizeSlow epoch
    let b := brocountLoop epoch n a.1
    (b.1, a.2 + b.2)

/-- `brothers_count`, `brothers_auth_count`, `bro_dir_count` and `bro_auth_dir_count` over
the dirfrags of a primary-linked inode. -/
def petalCounts (petals : List Dir) : ℤ × ℤ × ℤ × ℤ :=
  petals.foldl (fun c d =>
      (c.1 + (1 + d.numAny), if d.st.auth then c.2.1 + (1 + d.numAny) else c.2.1,
        c.2.2.1 + 1, if d.st.auth then c.2.2.2 + 1 else c.2.2.2))
    (1, 1, 1, 1)

/-- `count ? y / count : 0`. -/
def divOrZero (y : ℚ) (count : ℤ) : ℚ := if count ≠ 0 then y / count else 0

/-- `update_dir_pot_recur(dir, level, adj_auth_pot, adj_all_pot)` with `level` as a natural
number, `level <= 0` being `0`: the dirfrag takes the adjustment; one level more, each
dentry's share `adj * my_subtree_size / brocount` is split over the dirfrags of the inode a
primary dentry links, and each of them recurses one level down. Divisions by zero, `NaN` or
infinite in doubles, are `0` here. -/
def Dir.updatePotRecur (epoch : ℤ) : ℕ → ℚ → ℚ → Dir → Dir
  | 0, adjAuth, adjAll, .mk st items =>
    let st := { st with potAll := st.potAll.adjust adjAll epoch }
    .mk (if st.auth then { st with potAuth := st.potAuth.adjust adjAuth epoch } else st) items
  | n + 1, adjAuth, adjAll, .mk st items =>
    let st := { st with potAll := st.potAll.adjust adjAll epoch }
    let st := if st.auth then { st with potAuth := st.potAuth.adjust adjAuth epoch } else st
    let b := brocountLoop epoch items.length (.mk st items)
    -- each dentry's `get_authsubtree_size_slow` of the dirfrag reads the memo the first loop
    -- left current
    let my := (b.1.sizeSlow epoch).2
    let myAuth : ℚ := adjAuth * my / b.2
    let myAll : ℚ := adjAll * my / b.2
    .mk b.1.st (b.1.items.map fun it => match it with
      | .primary (.mk ist petals) =>
        let c := petalCounts petals
        let authSingle := divOrZero myAuth c.2.1
        let allSingle := divOrZero myAll c.1
        let authDir := divOrZero myAuth c.2.2.2
        let allDir := divOrZero myAll c.2.2.1
        .primary (.mk ist (petals.map fun d =>
          Dir.updatePotRecur epoch n
            (1 / 2 * (1 + d.numAny) * authSingle + 1 / 2 * authDir)
            (1 / 2 * (1 + d.numAny) * allSingle + 1 / 2 * allDir) d))
      | it => it)

/-- `update_dir_pot_recur` on dirfrag `j` of the inode at `p`. -/
def updateDirPotAt (epoch level : ℤ) (adjAuth adjAll : ℚ) (j : ℕ) (p : Path) (root : Inode) :
    Option Inode :=
  (atPath (fun i => match i with
      | .mk st dfs =>
        match dfs[j]? with
        | some d => some (.mk st (dfs.set j (d.updatePotRecur epoch level.toNat adjAuth adjAll)), ())
        | none => none)
    (fun _ st => st) (fun _ d => d) p root).map Prod.fst

end Lunule.Density

namespace Lunule.Density

/-! ### Calls on the cache -/

/-- A call the MDS makes on the cache: `CInode::hit` (from `hit_inode` with the balancer's
epoch, or from the Server without one), `alpha_beta`, `get_authsubtree_size_slow`,
`add_null_dentry`, `add_primary_dentry`, `CDir::get_load` and `update_dir_pot_recur`. -/
inductive Call where
  | hit (checkEpoch : Bool) (epoch : ℤ) (p : Path)
  | alphaBeta (epoch : ℤ) (p : Path)
  | sizeSlow (epoch : ℤ) (p : Path)
  | addNullDentry (j : ℕ) (p : Path)
  | addPrimaryDentry (j : ℕ) (p : Path) (c : Inode)
  | getLoad (epoch : ℤ) (j : ℕ) (p : Path)
  | updateDirPot (epoch level : ℤ) (adjAuth adjAll : ℚ) (j : ℕ) (p : Path)

/-- What a call returns. -/
inductive Answer where
  | newold (r : ℤ)
  | alphaBeta (ab : ℚ × ℚ) (counts : ℤ × ℤ)
  | size (n : ℤ)
  | load (l : ℚ)
  | done
  deriving DecidableEq, Repr

def Call.exec (root : Inode) : Call → Option (Inode × Answer)
  | .hit c e p => (hitAt c e p root).map fun r => (r.1, .newold r.2)
  | .alphaBeta e p => (alphaBetaAt e p root).map fun r => (r.1, .alphaBeta r.2.1 r.2.2)
  | .sizeSlow e p => (sizeSlowAt e p root).map fun r => (r.1, .size r.2)
  | .addNullDentry j p => (addNullDentryAt j p root).map fun t => (t, .done)
  | .addPrimaryDentry j p c => (addPrimaryDentryAt j p c root).map fun t => (t, .done)
  | .getLoad e j p => (getLoadAt e j p root).map fun r => (r.1, .load r.2)
  | .updateDirPot e l a b j p => (updateDirPotAt e l a b j p root).map fun t => (t, .done)

/-- A call on the cache, with its answer appended to those before it. -/
def step (s : Inode × List Answer) (c : Call) : Option (Inode × List Answer) :=
  (c.exec s.1).map fun r => (r.1, s.2 ++ [r.2])

/-! ### What a hit and a query do -/

namespace InodeSt

variable {st : InodeSt} {e : ℤ}

/-- A later epoch rolls the counts of the epoch before into `last_newoldhit`, whatever
epochs they were made in. -/
theorem maybeUpdateEpoch_of_lt (h : st.beatEpoch < e) :
    (st.maybeUpdateEpoch e).1.lastNewoldhit = st.newoldhit ∧
      (st.maybeUpdateEpoch e).1.newoldhit = (0, 0) ∧ (st.maybeUpdateEpoch e).1.beatEpoch = e ∧
      (st.maybeUpdateEpoch e).2 = e - st.beatEpoch := by
  simp only [maybeUpdateEpoch, if_pos h, true_and]
  exact if_neg (by omega)

/-- In the epoch it already has, `maybe_update_epoch` changes nothing and answers `0`. -/
theorem maybeUpdateEpoch_self (h : st.beatEpoch = e) : st.maybeUpdateEpoch e = (st, 0) := by
  subst h
  simp only [maybeUpdateEpoch, gt_iff_lt, lt_irrefl, if_false, sub_self]

end InodeSt

/-- An inode queried in the epoch it already has answers its memo and is left as it is. -/
theorem Inode.sizeSlow_of_current {st : InodeSt} {dfs : List Dir} {e : ℤ} (h : st.beatEpoch = e) :
    (Inode.mk st dfs).sizeSlow e = (.mk st dfs, st.subtreeSize) := by
  unfold Inode.sizeSlow
  split_ifs with h3
  · rfl
  · rw [InodeSt.maybeUpdateEpoch_self h]
    rfl

/-- A dirfrag queried in an epoch not later than its own answers its memo. -/
theorem Dir.sizeSlow_of_current {st : DirSt} {items : List Dentry} {e : ℤ} (h : e ≤ st.beatEpoch) :
    (Dir.mk st items).sizeSlow e = (.mk st items, st.numDentriesAuthSubtreeNested) := by
  unfold Dir.sizeSlow
  rw [if_pos h]

/-! ### Sizes in an epoch none of the tree has seen -/

mutual
/-- Every memo of the tree, of inodes and of dirfrags, was taken before epoch `e`. -/
def Inode.Fresh (e : ℤ) : Inode → Prop
  | .mk st dfs => st.beatEpoch < e ∧ dirsFresh e dfs

def dirsFresh (e : ℤ) : List Dir → Prop
  | [] => True
  | d :: ds => d.Fresh e ∧ dirsFresh e ds

def Dir.Fresh (e : ℤ) : Dir → Prop
  | .mk st items => st.beatEpoch < e ∧ itemsFresh e items

def itemsFresh (e : ℤ) : List Dentry → Prop
  | [] => True
  | .primary i :: ds => i.Fresh e ∧ itemsFresh e ds
  | .null :: ds => itemsFresh e ds
  | .remote :: ds => itemsFresh e ds
end

mutual
/-- In an epoch that is not a multiple of three and that no memo of the tree has seen,
`CInode::get_authsubtree_size_slow` is the size. -/
theorem Inode.sizeSlow_fresh {e : ℤ} (he : e % 3 ≠ 0) :
    ∀ i : Inode, i.Fresh e → (i.sizeSlow e).2 = i.size
  | .mk st dfs, ⟨hb, hd⟩ => by
    obtain ⟨-, -, -, hret⟩ := InodeSt.maybeUpdateEpoch_of_lt hb
    unfold Inode.sizeSlow Inode.size
    rw [if_neg he, if_neg (by omega)]
    exact dirsSizeSlow_fresh he dfs hd

theorem dirsSizeSlow_fresh {e : ℤ} (he : e % 3 ≠ 0) :
    ∀ ds : List Dir, dirsFresh e ds → (dirsSizeSlow e ds).2 = dirsSize ds
  | [], _ => rfl
  | d :: ds, ⟨hd, hds⟩ => by
    unfold dirsSizeSlow dirsSize
    dsimp only
    rw [dirsSizeSlow_fresh he ds hds]
    split_ifs
    · rw [Dir.sizeSlow_fresh he d hd]
    · rfl

/-- In an epoch no memo of the tree has seen, `CDir::get_authsubtree_size_slow` is the
number of dentries and the sizes of the primary-linked inodes. -/
theorem Dir.sizeSlow_fresh {e : ℤ} (he : e % 3 ≠ 0) :
    ∀ d : Dir, d.Fresh e → (d.sizeSlow e).2 = d.size
  | .mk st items, ⟨hb, hi⟩ => by
    unfold Dir.sizeSlow Dir.size
    rw [if_neg (by omega)]
    dsimp only
    rw [itemsSizeSlow_fresh he items hi, add_comm]

theorem itemsSizeSlow_fresh {e : ℤ} (he : e % 3 ≠ 0) :
    ∀ ds : List Dentry, itemsFresh e ds → (itemsSizeSlow e ds).2 = itemsSize ds
  | [], _ => rfl
  | .primary i :: ds, ⟨hi, hds⟩ => by
    unfold itemsSizeSlow itemsSize
    dsimp only
    rw [Inode.sizeSlow_fresh he i hi, itemsSizeSlow_fresh he ds hds]
  | .null :: ds, hds => by
    unfold itemsSizeSlow itemsSize
    dsimp only
    exact itemsSizeSlow_fresh he ds hds
  | .remote :: ds, hds => by
    unfold itemsSizeSlow itemsSize
    dsimp only
    exact itemsSizeSlow_fresh he ds hds
end

/-! ### Runs where the bookkeeping misreports -/

open Runs

/-- A root with one auth dirfrag whose one dentry links an inode with no dirfrags; inodes
built on zeroed storage and the dirfrag's `beat_epoch` left at `-1`. -/
def rootWithChild : Inode :=
  .mk (InodeSt.new false 0) [.mk (DirSt.new true (-1)) [.primary (.mk (InodeSt.new false 0) [])]]

/-- The child is hit in epochs 2 and 3 and nothing makes the root roll its counts in
between: in epoch 4, `alpha_beta` of the root reads one old and one new first hit, though
epoch 3 had only the old one; the new one is from epoch 2. -/
theorem rolled_counts_span_epochs :
    (run step (rootWithChild, [])
      [.hit true 2 [(0, 0)], .hit true 3 [(0, 0)], .alphaBeta 4 []]).map Prod.snd =
      some [.newold 1, .newold 0, .alphaBeta (1 / 2, 1 / 10) (1, 1)] := by
  decide +kernel

/-- An inode with one auth dirfrag and no dentries yet. -/
def inodeWithDir : Inode := .mk (InodeSt.new false 0) [.mk (DirSt.new true (-1)) []]

/-- A dentry added, then a hit in epoch 1 before the size is asked in that epoch: the hit
has stored the epoch, `maybe_update_epoch` answers `0`, and the size read is the stale memo
`0`, though the inode's auth subtree holds one dentry. -/
theorem hit_makes_size_stale :
    (run step (inodeWithDir, [])
      [.addNullDentry 0 [], .hit true 1 [], .sizeSlow 1 []]).map
        (fun s => (s.2, s.1.size)) =
      some ([.done, .newold 1, .size 0], 1) := by
  decide +kernel

/-! ### The divisor of the potential shares -/

/-- After `CDir::get_authsubtree_size_slow(e)` the dirfrag's memo is current for `e` and holds
what the call answered. -/
theorem Dir.sizeSlow_current (e : ℤ) (d : Dir) :
    e ≤ (d.sizeSlow e).1.st.beatEpoch ∧
      (d.sizeSlow e).1.st.numDentriesAuthSubtreeNested = (d.sizeSlow e).2 := by
  obtain ⟨st, items⟩ := d
  unfold Dir.sizeSlow
  split_ifs with h
  · exact ⟨h, rfl⟩
  · exact ⟨le_refl e, rfl⟩

/-- A second `CDir::get_authsubtree_size_slow` in the same epoch reads what the first left. -/
theorem Dir.sizeSlow_sizeSlow (e : ℤ) (d : Dir) :
    (d.sizeSlow e).1.sizeSlow e = d.sizeSlow e := by
  obtain ⟨h1, h2⟩ := Dir.sizeSlow_current e d
  generalize d.sizeSlow e = r at h1 h2 ⊢
  obtain ⟨⟨st, items⟩, n⟩ := r
  simp only [Dir.st] at h1 h2
  rw [Dir.sizeSlow_of_current h1, h2]

/-- `brocount` is the dirfrag's own size once per dentry, whatever the dentries are. -/
theorem brocountLoop_eq (e : ℤ) (d : Dir) :
    ∀ n : ℕ, 0 < n → brocountLoop e n d = ((d.sizeSlow e).1, n * (d.sizeSlow e).2)
  | 1, _ => by simp [brocountLoop]
  | n + 2, _ => by
    have ih := brocountLoop_eq e (d.sizeSlow e).1 (n + 1) (by omega)
    rw [Dir.sizeSlow_sizeSlow] at ih
    unfold brocountLoop
    dsimp only
    rw [ih]
    push_cast
    ring_nf

/-- Every dentry of a dirfrag gets the same share `my_subtree_size / brocount` of the
adjustment: `1 / n` for `n` dentries, whatever each dentry holds below it. -/
theorem share_eq_inv_count (e : ℤ) (d : Dir) (hn : 0 < d.items.length)
    (hS : (d.sizeSlow e).2 ≠ 0) :
    ((((brocountLoop e d.items.length d).1.sizeSlow e).2 : ℤ) : ℚ) /
        (brocountLoop e d.items.length d).2 = 1 / d.items.length := by
  rw [brocountLoop_eq e d _ hn, Dir.sizeSlow_sizeSlow]
  have hS' : ((d.sizeSlow e).2 : ℚ) ≠ 0 := by exact_mod_cast hS
  have hn' : (d.items.length : ℚ) ≠ 0 := by exact_mod_cast hn.ne'
  push_cast
  field_simp

/-- A dirfrag whose memo is current and zero gives `brocount = 0`. -/
theorem brocountLoop_of_current {e : ℤ} {st : DirSt} {items : List Dentry}
    (h : e ≤ st.beatEpoch) (h0 : st.numDentriesAuthSubtreeNested = 0) :
    ∀ n : ℕ, (brocountLoop e n (.mk st items)).2 = 0
  | 0 => rfl
  | n + 1 => by
    unfold brocountLoop
    dsimp only
    rw [Dir.sizeSlow_of_current h, h0, brocountLoop_of_current h h0 n]
    rfl

/-- An inode with one dirfrag that is not auth and has no dentries yet. -/
def inodeWithRemoteDir : Inode := .mk (InodeSt.new false 0) [.mk (DirSt.new false (-1)) []]

/-- Two runs where `update_dir_pot_recur` does not split by the dentries' sizes. In the
first, a dirfrag holds a null dentry (size 1) and a primary one linking an inode whose
dirfrag holds one null dentry (size 2); a call at level 1 in epoch 1 gives each dentry half,
so that dirfrag's `pot_auth` gets `1/2 · 7/12 = 7/24`, not the `2/3 · 7/12` a share by
size would give. In the second, a dirfrag that is not auth gets a null dentry, which adds
`is_auth() = 0` to its memo, and `get_load` makes the memo current: `brocount` is then `0`
with one dentry, and each share divides by zero. -/
theorem pot_shares_ignore_sizes :
    (∃ J, addNullDentryAt 0 [] inodeWithDir = some J ∧ J.size = 1 ∧
      (run step (inodeWithDir, [])
        [.addNullDentry 0 [], .addPrimaryDentry 0 [] J, .updateDirPot 1 1 1 1 0 []]).map
          (fun s => (((s.1.dirfrags[0]?).bind fun D => D.items[1]?).bind Dentry.inode?).bind
            fun J' => J'.dirfrags[0]?.map fun E => E.st.potAuth.value) =
        some (some (7 / 24))) ∧
    (run step (inodeWithRemoteDir, []) [.addNullDentry 0 [], .getLoad 1 0 []]).map
        (fun s => (s.1.dirfrags[0]?).map fun F =>
          (F.items.length, (brocountLoop 1 F.items.length F).2)) =
      some (some (1, 0)) :=
  ⟨⟨_, rfl, by decide +kernel, by decide +kernel⟩, by decide +kernel⟩

end Lunule.Density
