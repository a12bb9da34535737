import Lunule.Crush.Straw2

/-!
The placement loops of `crush/mapper.c`: the bucket choices of the other algorithms
(`bucket_perm_choose`, `bucket_list_choose`, `bucket_tree_choose`, `bucket_straw_choose`),
`is_out`, `crush_choose_firstn`, `crush_choose_indep` and `crush_do_rule`. The loops of the
source have no bound of their own, so every loop here takes one unit of a shared fuel argument
per round, and ends in `CrushFault.outOfFuel` when it runs out; a read through a `NULL` bucket
pointer is `CrushFault.badPointer`.

The retry loop of `crush_choose_firstn` retries a collision while `flocal <= local_retries`, an
unsigned comparison against the map's `choose_local_tries`. At `0xffffffff` it holds for every
`flocal`, and a bucket whose choice is always an item chosen already is retried forever
(`firstnBucketLoop_collides`); a tree bucket of at most one node loops in `height(0)`.
-/

namespace Lunule.Crush

/-- Why a run of the model stops without a result. -/
inductive CrushFault where
  /-- A loop ran out of fuel. -/
  | outOfFuel
  /-- A read through a `NULL` bucket, rule or `out2` pointer, or past the bucket array. -/
  | badPointer
  deriving DecidableEq, Repr

/-! ### Maps -/

/-- The per-algorithm arrays of a bucket that the choice functions read; the constructor is
`crush_bucket.alg`. -/
inductive BucketArrays where
  | uniform
  | list (itemWeights sumWeights : List ℕ)
  | tree (numNodes : ℕ) (nodeWeights : List ℕ)
  | straw (straws : List ℕ)
  | straw2 (itemWeights : List ℕ)
  /-- An `alg` that `crush_bucket_choose` has no case for. -/
  | unknown (alg : ℕ)
  deriving DecidableEq, Repr

/-- `crush_bucket` with the arrays of its algorithm. -/
structure MapBucket where
  id : ℤ
  type : ℕ
  h : CrushBucket
  arrays : BucketArrays
  deriving DecidableEq, Repr

def MapBucket.isUniform (b : MapBucket) : Bool :=
  b.arrays == .uniform

inductive CrushRuleOp where
  | noop
  | take
  | chooseFirstn
  | chooseIndep
  | emit
  | chooseleafFirstn
  | chooseleafIndep
  | setChooseTries
  | setChooseleafTries
  | setChooseLocalTries
  | setChooseLocalFallbackTries
  | setChooseleafVaryR
  | setChooseleafStable
  | unknown (op : ℕ)
  deriving DecidableEq, Repr

/-- `crush_rule_step`. -/
structure CrushRuleStep where
  op : CrushRuleOp
  arg1 : ℤ
  arg2 : ℤ
  deriving DecidableEq, Repr

/-- The fields of `crush_map` that `crush_do_rule` reads. A `NULL` bucket or rule is `none`;
`max_buckets` and `max_rules` are the lengths of the two arrays. -/
structure CrushMap where
  buckets : List (Option MapBucket)
  rules : List (Option (List CrushRuleStep))
  maxDevices : ℤ
  chooseLocalTries : UInt32
  chooseLocalFallbackTries : UInt32
  chooseTotalTries : UInt32
  chooseleafDescendOnce : UInt32
  chooseleafVaryR : UInt8
  chooseleafStable : UInt8
  deriving DecidableEq, Repr

/-- `map->buckets[b]`. -/
def CrushMap.bucket (m : CrushMap) (b : ℤ) : Except CrushFault MapBucket :=
  match (if 0 ≤ b then m.buckets[b.toNat]?.join else none) with
  | some bucket => .ok bucket
  | none => .error .badPointer

/-- `item < 0 ? map->buckets[-1-item]->type : 0`. -/
def CrushMap.itemType (m : CrushMap) (item : ℤ) : Except CrushFault ℤ :=
  if item < 0 then (fun b : MapBucket => (b.type : ℤ)) <$> m.bucket (-1 - item) else .ok 0

/-- `crush_work_bucket`. -/
structure WorkBucket where
  permX : UInt32
  permN : UInt32
  perm : List ℕ
  deriving DecidableEq, Repr, Inhabited

/-- `crush_init_workspace`: no permutation is defined yet, and `perm` has the bucket's size. -/
def crushInitWorkspace (m : CrushMap) : List WorkBucket :=
  m.buckets.map fun b => ⟨0, 0, List.replicate ((b.map (·.h.size)).getD 0) 0⟩

/-! ### The bucket choices -/

/-- One round of the `while (work->perm_n <= pr)` loop of `bucket_perm_choose`: entry
`p = perm_n` is swapped with one after it, chosen by the hash, and `perm_n` advances. -/
def permSwap (b : MapBucket) (x : ℤ) (w : WorkBucket) : WorkBucket :=
  let p := w.permN.toNat
  let w :=
    -- no point in swapping the final entry
    if p < b.h.size - 1 then
      let i := (crushHash32_3 b.h.hash (UInt32.ofInt x) (UInt32.ofInt b.id) w.permN).toNat %
        (b.h.size - p)
      if i ≠ 0 then
        { w with perm := (w.perm.set (p + i) (w.perm.getD p 0)).set p (w.perm.getD (p + i) 0) }
      else w
    else w
  { w with permN := w.permN + 1 }

/-- The permutation computed up to `pr`, and the item at its position `pr`. -/
def permFinish (b : MapBucket) (x : ℤ) (pr : ℕ) (w : WorkBucket) : ℤ × WorkBucket :=
  let w := (permSwap b x)^[pr + 1 - w.permN.toNat] w
  (b.h.items.getD (w.perm.getD pr 0) 0, w)

/-- `bucket_perm_choose`: the item at position `r % size` of a random permutation of the bucket,
computed lazily in `work` and kept for the next call with the same `x`. -/
def bucketPermChoose (b : MapBucket) (w : WorkBucket) (x r : ℤ) : ℤ × WorkBucket :=
  let pr := (UInt32.ofInt r).toNat % b.h.size
  let xu := UInt32.ofInt x
  if w.permX ≠ xu ∨ w.permN = 0 then
    if pr = 0 then
      -- the common `r = 0` case: only `perm[0]` is computed, and `perm_n = 0xffff` marks it
      let s := (crushHash32_3 b.h.hash xu (UInt32.ofInt b.id) 0).toNat % b.h.size
      (b.h.items.getD s 0, { permX := xu, permN := 0xffff, perm := w.perm.set 0 s })
    else permFinish b x pr { permX := xu, permN := 0, perm := List.range b.h.size }
  else if w.permN = 0xffff then
    -- clean up after the `r = 0` case: the identity with `perm[0]` and `perm[perm[0]]` swapped
    let s := w.perm.getD 0 0
    permFinish b x pr { w with permN := 1, perm := ((List.range b.h.size).set 0 s).set s 0 }
  else permFinish b x pr w

/-- `bucket_perm_choose` on the bucket's own `work->work[-1-id]`, written back. -/
def permChooseAt (work : List WorkBucket) (b : MapBucket) (x r : ℤ) : ℤ × List WorkBucket :=
  let i := (-1 - b.id).toNat
  let c := bucketPermChoose b (work.getD i default) x r
  (c.1, work.set i c.2)

/-- `bucket_list_choose`: from the last item down, the first whose scaled draw falls below its
weight; item `0` if none does. The draw is below `2^16` and a sum weight below `2^32`, so the
64-bit product does not wrap. -/
def bucketListChoose (b : MapBucket) (itemWeights sumWeights : List ℕ) (x r : ℤ) : ℤ :=
  let below (i : ℕ) : Bool :=
    let w := (crushHash32_4 b.h.hash (UInt32.ofInt x) (UInt32.ofInt (b.h.items.getD i 0))
      (UInt32.ofInt r) (UInt32.ofInt b.id)).toNat &&& 0xffff
    (w * sumWeights.getD i 0) >>> 16 < itemWeights.getD i 0
  match (List.range b.h.size).reverse.find? below with
  | some i => b.h.items.getD i 0
  | none => b.h.items.getD 0 0

/-- The loop of `height(n)` with its counter `h`: it counts the trailing zero bits of `n`, and
does not end for `n = 0`. -/
def heightLoop : ℕ → ℤ → ℕ → Except CrushFault ℕ
  | 0, _, _ => .error .outOfFuel
  | fuel + 1, n, h => if n % 2 = 0 then heightLoop fuel (n >>> (1 : ℕ)) (h + 1) else .ok h

def height (fuel : ℕ) (n : ℤ) : Except CrushFault ℕ :=
  heightLoop fuel n 0

/-- The descent of `bucket_tree_choose` from node `n` to a leaf (an odd node): the hash picks a
point below the node's weight, and the walk goes left if it falls below the left child's
weight. `left(n)` and `right(n)` each compute `height(n)`. -/
def treeDescend (b : MapBucket) (nodeWeights : List ℕ) (x r : ℤ) : ℕ → ℤ → Except CrushFault ℤ
  | 0, _ => .error .outOfFuel
  | fuel + 1, n =>
    if n % 2 = 1 then .ok n
    else do
      let t := ((crushHash32_4 b.h.hash (UInt32.ofInt x) (UInt32.ofInt n) (UInt32.ofInt r)
        (UInt32.ofInt b.id)).toNat * nodeWeights.getD n.toNat 0) >>> 32
      let h ← height fuel n
      let l := n - 2 ^ (h - 1)
      if t < nodeWeights.getD l.toNat 0 then treeDescend b nodeWeights x r fuel l
      else
        let h ← height fuel n
        treeDescend b nodeWeights x r fuel (n + 2 ^ (h - 1))

/-- `bucket_tree_choose`: the descent starts at the root `num_nodes >> 1`. -/
def bucketTreeChoose (fuel : ℕ) (b : MapBucket) (numNodes : ℕ) (nodeWeights : List ℕ)
    (x r : ℤ) : Except CrushFault ℤ :=
  (fun n : ℤ => b.h.items.getD (n >>> (1 : ℕ)).toNat 0) <$>
    treeDescend b nodeWeights x r fuel (numNodes / 2 : ℕ)

/-- `bucket_straw_choose`: the first item of greatest `(hash & 0xffff) * straw`. -/
def bucketStrawChoose (b : MapBucket) (straws : List ℕ) (x r : ℤ) : ℤ :=
  let draw (i : ℕ) : ℕ :=
    ((crushHash32_3 b.h.hash (UInt32.ofInt x) (UInt32.ofInt (b.h.items.getD i 0))
      (UInt32.ofInt r)).toNat &&& 0xffff) * straws.getD i 0
  b.h.items.getD (FirstMax.scan draw (0, 0) b.h.size).1 0

/-- `crush_bucket_choose`, with the workspace that the uniform case updates. -/
def crushBucketChoose (fuel : ℕ) (work : List WorkBucket) (b : MapBucket) (x r : ℤ)
    (arg : Option CrushChooseArg) (position : ℤ) : Except CrushFault (ℤ × List WorkBucket) :=
  match b.arrays with
  | .uniform => .ok (permChooseAt work b x r)
  | .list itemWeights sumWeights => .ok (bucketListChoose b itemWeights sumWeights x r, work)
  | .tree numNodes nodeWeights =>
    (fun item => (item, work)) <$> bucketTreeChoose fuel b numNodes nodeWeights x r
  | .straw straws => .ok (bucketStrawChoose b straws x r, work)
  | .straw2 itemWeights => .ok (bucketStraw2Choose ⟨b.h, itemWeights⟩ x r arg position.toNat, work)
  | .unknown _ => .ok (b.h.items.getD 0 0, work)

/-- `is_out`: a device past the weight vector or of weight `0` is out, one of weight at least
`0x10000` is in, and one in between is in for a share of the inputs `x` given by its weight. -/
def isOut (weight : List ℕ) (weightMax item x : ℤ) : Bool :=
  if weightMax ≤ item then true
  else if 0x10000 ≤ weight.getD item.toNat 0 then false
  else if weight.getD item.toNat 0 = 0 then true
  else if (crushHash32_2 crushHashRjenkins1 (UInt32.ofInt x) (UInt32.ofInt item)).toNat &&& 0xffff
      < weight.getD item.toNat 0 then false
  else true

/-! ### `crush_choose_firstn` -/

/-- What stays fixed through one `crush_do_rule`: the map, the device weights and the choose
args. -/
structure CrushEnv where
  map : CrushMap
  weight : List ℕ
  weightMax : ℤ
  chooseArgs : Option (List CrushChooseArg)

/-- `choose_args ? &choose_args[-1-in->id] : 0`. -/
def CrushEnv.argOf (env : CrushEnv) (b : MapBucket) : Option CrushChooseArg :=
  env.chooseArgs.map fun args => args.getD (-1 - b.id).toNat ⟨none, none⟩

/-- The parameters of one `crush_choose_firstn` call that stay fixed through it. -/
structure FirstnArgs where
  bucket : MapBucket
  x : ℤ
  numrep : ℤ
  type : ℤ
  tries : UInt32
  recurseTries : UInt32
  localRetries : UInt32
  localFallbackRetries : UInt32
  recurseToLeaf : Bool
  varyR : UInt32
  stable : UInt32
  parentR : ℤ

/-- What a `crush_choose_firstn` call updates: `out` from `outpos` on, `count` (`out_size` at
entry), `out2` and the workspace. -/
structure FirstnState where
  out : List ℤ
  outpos : ℤ
  count : ℤ
  out2 : List ℤ
  work : List WorkBucket

/-- The locals of one replica's retry loops: the bucket `in` chosen from, the two failure
counters, the last item chosen and the two exit flags. -/
structure FirstnLoop where
  cur : MapBucket
  ftotal : UInt32
  flocal : UInt32
  item : ℤ
  retryDescent : Bool
  skipRep : Bool

/-- `r = rep + parent_r; r += ftotal`, the unsigned sum read back as a 32-bit `int`. -/
def firstnR (a : FirstnArgs) (rep : ℤ) (ftotal : UInt32) : ℤ :=
  (rep + a.parentR + ftotal.toNat).bmod (2 ^ 32)

/-- The bucket choice of one pass: `bucket_perm_choose` once `flocal` has reached
`in->size >> 1` and passed a nonzero `local_fallback_retries`, `crush_bucket_choose`
otherwise. -/
def firstnChoose (fuel : ℕ) (env : CrushEnv) (a : FirstnArgs) (work : List WorkBucket)
    (cur : MapBucket) (flocal : UInt32) (r outpos : ℤ) : Except CrushFault (ℤ × List WorkBucket) :=
  if 0 < a.localFallbackRetries ∧ UInt32.ofNat cur.h.size >>> 1 ≤ flocal ∧
      a.localFallbackRetries < flocal then
    .ok (permChooseAt work cur a.x r)
  else crushBucketChoose fuel work cur a.x r (env.argOf cur) outpos

/-- The `reject:` label, reached with `reject || collide`: both failure counters advance, and
the loop retries the same bucket (the second component, `retry_bucket`), retries the descent,
or gives the replica up. -/
def firstnReject (a : FirstnArgs) (lp : FirstnLoop) (collide : Bool) : FirstnLoop × Bool :=
  let lp := { lp with ftotal := lp.ftotal + 1, flocal := lp.flocal + 1 }
  if collide ∧ lp.flocal ≤ a.localRetries then (lp, true)
  else if 0 < a.localFallbackRetries ∧
      lp.flocal ≤ UInt32.ofNat lp.cur.h.size + a.localFallbackRetries then (lp, true)
  else if lp.ftotal < a.tries then ({ lp with retryDescent := true }, false)
  else ({ lp with skipRep := true }, false)

/-- The parameters of the recursive `crush_choose_firstn` of `chooseleaf`: one leaf below `b`,
written to the caller's `out2`, with `recurse_tries` tries and `sub_r` as `parent_r`. -/
def FirstnArgs.leaf (a : FirstnArgs) (b : MapBucket) (outpos subR : ℤ) : FirstnArgs :=
  { a with
    bucket := b, numrep := if a.stable ≠ 0 then 1 else outpos + 1, type := 0,
    tries := a.recurseTries, recurseTries := 0, recurseToLeaf := false, parentR := subR }

mutual

/-- The `for (rep = ...; rep < numrep && count > 0; rep++)` loop of `crush_choose_firstn`. -/
def firstnRepLoop (env : CrushEnv) :
    ℕ → FirstnArgs → ℤ → FirstnState → Except CrushFault FirstnState
  | 0, _, _, _ => .error .outOfFuel
  | fuel + 1, a, rep, st =>
    if rep < a.numrep ∧ 0 < st.count then do
      -- `in` and the counters start afresh for each replica
      let (st, lp) ← firstnDescentLoop env fuel a rep st ⟨a.bucket, 0, 0, 0, false, false⟩
      if lp.skipRep then firstnRepLoop env fuel a (rep + 1) st
      else
        firstnRepLoop env fuel a (rep + 1)
          { st with out := st.out.set st.outpos.toNat lp.item, outpos := st.outpos + 1,
                    count := st.count - 1 }
    else .ok st

/-- The `do { ... } while (retry_descent)` loop: each round starts again from `bucket`. -/
def firstnDescentLoop (env : CrushEnv) :
    ℕ → FirstnArgs → ℤ → FirstnState → FirstnLoop → Except CrushFault (FirstnState × FirstnLoop)
  | 0, _, _, _, _ => .error .outOfFuel
  | fuel + 1, a, rep, st, lp => do
    let (st, lp) ← firstnBucketLoop env fuel a rep st
      { lp with retryDescent := false, cur := a.bucket, flocal := 0 }
    if lp.retryDescent then firstnDescentLoop env fuel a rep st lp else .ok (st, lp)

/-- The `do { ... } while (retry_bucket)` loop: one bucket choice per round, descending into a
child bucket of another type, and for `chooseleaf` the recursive call below the item. -/
def firstnBucketLoop (env : CrushEnv) :
    ℕ → FirstnArgs → ℤ → FirstnState → FirstnLoop → Except CrushFault (FirstnState × FirstnLoop)
  | 0, _, _, _, _ => .error .outOfFuel
  | fuel + 1, a, rep, st, lp => do
    let r := firstnR a rep lp.ftotal
    if lp.cur.h.size = 0 then
      -- `goto reject` with `reject = 1` and `collide = 0`
      let (lp, retry) := firstnReject a lp false
      return ← if retry then firstnBucketLoop env fuel a rep st lp else .ok (st, lp)
    let (item, work) ← firstnChoose fuel env a st.work lp.cur lp.flocal r st.outpos
    let st := { st with work }
    let lp := { lp with item }
    if env.map.maxDevices ≤ item then return (st, { lp with skipRep := true })
    let itemtype ← env.map.itemType item
    if itemtype ≠ a.type then
      if 0 ≤ item ∨ env.map.buckets.length ≤ -1 - item then return (st, { lp with skipRep := true })
      let b ← env.map.bucket (-1 - item)
      return ← firstnBucketLoop env fuel a rep st { lp with cur := b }
    let collide := (st.out.take st.outpos.toNat).contains item
    -- `reject` is set by a `chooseleaf` descent that found no leaf
    let (st, reject) ← do
      if !collide && a.recurseToLeaf then
        if item < 0 then
          let b ← env.map.bucket (-1 - item)
          let subR := if a.varyR ≠ 0 then r >>> (a.varyR - 1).toNat else 0
          let inner ← firstnRepLoop env fuel (a.leaf b st.outpos subR)
            (if a.stable ≠ 0 then 0 else st.outpos) ⟨st.out2, st.outpos, st.count, [], st.work⟩
          pure ({ st with out2 := inner.out, work := inner.work }, decide (inner.outpos ≤ st.outpos))
        else pure ({ st with out2 := st.out2.set st.outpos.toNat item }, false)
      else pure (st, false)
    let reject :=
      if !reject && !collide && itemtype = 0 then isOut env.weight env.weightMax item a.x
      else reject
    if reject || collide then
      let (lp, retry) := firstnReject a lp collide
      if retry then firstnBucketLoop env fuel a rep st lp else .ok (st, lp)
    else .ok (st, lp)

end

/-- `crush_choose_firstn`; its return value is the final `outpos`. -/
def crushChooseFirstn (fuel : ℕ) (env : CrushEnv) (a : FirstnArgs) (st : FirstnState) :
    Except CrushFault FirstnState :=
  firstnRepLoop env fuel a (if a.stable ≠ 0 then 0 else st.outpos) st

/-! ### `crush_choose_indep` -/

def crushItemUndef : ℤ := 0x7ffffffe

def crushItemNone : ℤ := 0x7fffffff

/-- The parameters of one `crush_choose_indep` call, with `endpos = outpos + left`. -/
structure IndepArgs where
  bucket : MapBucket
  x : ℤ
  numrep : ℤ
  type : ℤ
  outpos : ℤ
  endpos : ℤ
  tries : UInt32
  recurseTries : UInt32
  recurseToLeaf : Bool
  parentR : ℤ

/-- What a `crush_choose_indep` call updates; a `NULL` `out2` is `none`. -/
structure IndepState where
  out : List ℤ
  out2 : Option (List ℤ)
  left : ℤ
  work : List WorkBucket

/-- `l[i] = v` for `lo <= i < hi`. -/
def setRange (l : List ℤ) (lo hi v : ℤ) : List ℤ :=
  l.mapIdx fun i y => if lo ≤ i ∧ i < hi then v else y

/-- The last loop of `crush_choose_indep`: undefined entries of `[lo, hi)` become
`CRUSH_ITEM_NONE`. -/
def undefToNone (l : List ℤ) (lo hi : ℤ) : List ℤ :=
  l.mapIdx fun i y => if lo ≤ i ∧ i < hi ∧ y = crushItemUndef then crushItemNone else y

/-- Position `rep` given up: `CRUSH_ITEM_NONE` in `out` and `out2`, and one fewer left. -/
def IndepState.setNone (st : IndepState) (rep : ℤ) : IndepState :=
  { st with out := st.out.set rep.toNat crushItemNone,
            out2 := st.out2.map (·.set rep.toNat crushItemNone), left := st.left - 1 }

/-- `r` of one pass: `rep + parent_r` plus `(numrep + 1) * ftotal` for a uniform bucket whose
size `numrep` divides, `numrep * ftotal` otherwise, in 32-bit arithmetic. -/
def indepR (a : IndepArgs) (cur : MapBucket) (rep : ℤ) (ftotal : UInt32) : ℤ :=
  if cur.isUniform ∧ UInt32.ofNat cur.h.size % UInt32.ofInt a.numrep = 0 then
    (rep + a.parentR + (a.numrep + 1) * ftotal.toNat).bmod (2 ^ 32)
  else (rep + a.parentR + a.numrep * ftotal.toNat).bmod (2 ^ 32)

/-- The parameters of the recursive `crush_choose_indep` of `chooseleaf`: one position `rep` of
the caller's `out2`, with `recurse_tries` tries and the caller's `r` as `parent_r`. -/
def IndepArgs.leaf (a : IndepArgs) (b : MapBucket) (rep r : ℤ) : IndepArgs :=
  ⟨b, a.x, a.numrep, 0, rep, rep + 1, a.recurseTries, 0, false, r⟩

mutual

/-- `crush_choose_indep`: the positions of `[outpos, endpos)` start undefined, the rounds of
`indepTryLoop` fill them, and those still undefined become `CRUSH_ITEM_NONE`. -/
def indepChoose (env : CrushEnv) : ℕ → IndepArgs → IndepState → Except CrushFault IndepState
  | 0, _, _ => .error .outOfFuel
  | fuel + 1, a, st => do
    let st := { st with out := setRange st.out a.outpos a.endpos crushItemUndef,
                        out2 := st.out2.map (setRange · a.outpos a.endpos crushItemUndef) }
    let st ← indepTryLoop env fuel a 0 st
    pure { st with out := undefToNone st.out a.outpos a.endpos,
                   out2 := st.out2.map (undefToNone · a.outpos a.endpos) }

/-- `for (ftotal = 0; left > 0 && ftotal < tries; ftotal++)`. -/
def indepTryLoop (env : CrushEnv) :
    ℕ → IndepArgs → UInt32 → IndepState → Except CrushFault IndepState
  | 0, _, _, _ => .error .outOfFuel
  | fuel + 1, a, ftotal, st =>
    if 0 < st.left ∧ ftotal < a.tries then do
      let st ← indepRepLoop env fuel a ftotal a.outpos st
      indepTryLoop env fuel a (ftotal + 1) st
    else .ok st

/-- `for (rep = outpos; rep < endpos; rep++)`, skipping the positions filled already. -/
def indepRepLoop (env : CrushEnv) :
    ℕ → IndepArgs → UInt32 → ℤ → IndepState → Except CrushFault IndepState
  | 0, _, _, _, _ => .error .outOfFuel
  | fuel + 1, a, ftotal, rep, st =>
    if rep < a.endpos then
      if st.out.getD rep.toNat 0 ≠ crushItemUndef then indepRepLoop env fuel a ftotal (rep + 1) st
      else do
        let st ← indepDescend env fuel a ftotal rep a.bucket st
        indepRepLoop env fuel a ftotal (rep + 1) st
    else .ok st

/-- The `for (;;)` loop for one position: descend through buckets of another type, and stop at
the first item of the wanted type, placing it unless it collides, has no leaf or is out. -/
def indepDescend (env : CrushEnv) :
    ℕ → IndepArgs → UInt32 → ℤ → MapBucket → IndepState → Except CrushFault IndepState
  | 0, _, _, _, _, _ => .error .outOfFuel
  | fuel + 1, a, ftotal, rep, cur, st => do
    let r := indepR a cur rep ftotal
    if cur.h.size = 0 then return st
    let (item, work) ← crushBucketChoose fuel st.work cur a.x r (env.argOf cur) a.outpos
    let st := { st with work }
    if env.map.maxDevices ≤ item then return st.setNone rep
    let itemtype ← env.map.itemType item
    if itemtype ≠ a.type then
      if 0 ≤ item ∨ env.map.buckets.length ≤ -1 - item then return st.setNone rep
      let b ← env.map.bucket (-1 - item)
      return ← indepDescend env fuel a ftotal rep b st
    if ((st.out.drop a.outpos.toNat).take (a.endpos - a.outpos).toNat).contains item then
      return st
    -- `noLeaf`: the nested `chooseleaf` call placed nothing at `rep`
    let (st, noLeaf) ← do
      if a.recurseToLeaf then
        if item < 0 then
          let b ← env.map.bucket (-1 - item)
          -- the nested call writes to `out2`, which a `NULL` pointer cannot take
          let out2 ← match st.out2 with
            | some out2 => pure out2
            | none => throw CrushFault.badPointer
          let inner ← indepChoose env fuel (a.leaf b rep r) ⟨out2, none, 1, st.work⟩
          pure ({ st with out2 := some inner.out, work := inner.work },
            inner.out.getD rep.toNat 0 == crushItemNone)
        else pure ({ st with out2 := st.out2.map (·.set rep.toNat item) }, false)
      else pure (st, false)
    if noLeaf then return st
    if itemtype = 0 ∧ isOut env.weight env.weightMax item a.x then return st
    pure { st with out := st.out.set rep.toNat item, left := st.left - 1 }

end

/-! ### `crush_do_rule` -/

/-- The locals of `crush_do_rule`: the three arrays `w`, `o`, `c` (`w` and `o` swap after each
choose step), `wsize`, the result so far and the tunables that rule steps may set. -/
structure RuleState where
  w : List ℤ
  o : List ℤ
  c : List ℤ
  wsize : ℤ
  result : List ℤ
  chooseTries : UInt32
  chooseLeafTries : UInt32
  chooseLocalRetries : UInt32
  chooseLocalFallbackRetries : UInt32
  varyR : UInt32
  stable : UInt32
  work : List WorkBucket

/-- The locals at entry; `choose_tries` is `choose_total_tries + 1`. -/
def RuleState.init (m : CrushMap) (resultMax : ℤ) (work : List WorkBucket) : RuleState :=
  let buf := List.replicate resultMax.toNat 0
  { w := buf, o := buf, c := buf, wsize := 0, result := [],
    chooseTries := m.chooseTotalTries + 1, chooseLeafTries := 0,
    chooseLocalRetries := m.chooseLocalTries,
    chooseLocalFallbackRetries := m.chooseLocalFallbackTries,
    varyR := m.chooseleafVaryR.toUInt32, stable := m.chooseleafStable.toUInt32, work }

/-- One round `i` of the loop over `w` in a choose step: a choice below bucket `w[i]`, written at
`osize` in `o` and `c`. -/
def chooseInto (fuel : ℕ) (env : CrushEnv) (x resultMax : ℤ) (step : CrushRuleStep)
    (firstn recurseToLeaf : Bool) (p : ℤ × RuleState) (i : ℕ) :
    Except CrushFault (ℤ × RuleState) := do
  let (osize, rs) := p
  let numrep := if step.arg1 ≤ 0 then step.arg1 + resultMax else step.arg1
  let bno := -1 - rs.w.getD i 0
  if numrep ≤ 0 ∨ bno < 0 ∨ env.map.buckets.length ≤ bno then return (osize, rs)
  let b ← env.map.bucket bno
  if firstn then
    let recurseTries :=
      if rs.chooseLeafTries ≠ 0 then rs.chooseLeafTries
      else if env.map.chooseleafDescendOnce ≠ 0 then 1
      else rs.chooseTries
    let a : FirstnArgs := ⟨b, x, numrep, step.arg2, rs.chooseTries, recurseTries,
      rs.chooseLocalRetries, rs.chooseLocalFallbackRetries, recurseToLeaf, rs.varyR, rs.stable, 0⟩
    let st ← crushChooseFirstn fuel env a
      ⟨rs.o.drop osize.toNat, 0, resultMax - osize, rs.c.drop osize.toNat, rs.work⟩
    pure (osize + st.outpos, { rs with o := rs.o.take osize.toNat ++ st.out,
                                       c := rs.c.take osize.toNat ++ st.out2, work := st.work })
  else
    let outSize := min numrep (resultMax - osize)
    let a : IndepArgs := ⟨b, x, numrep, step.arg2, 0, outSize, rs.chooseTries,
      if rs.chooseLeafTries ≠ 0 then rs.chooseLeafTries else 1, recurseToLeaf, 0⟩
    let st ← indepChoose env fuel a ⟨rs.o.drop osize.toNat, some (rs.c.drop osize.toNat), outSize,
      rs.work⟩
    pure (osize + outSize, { rs with o := rs.o.take osize.toNat ++ st.out,
                                     c := rs.c.take osize.toNat ++ st.out2.getD [],
                                     work := st.work })

/-- A choose step: the choices below every bucket of `w`, copied from `c` for `chooseleaf`, become
the new `w`. -/
def ruleChoose (fuel : ℕ) (env : CrushEnv) (x resultMax : ℤ) (step : CrushRuleStep)
    (firstn recurseToLeaf : Bool) (rs : RuleState) : Except CrushFault RuleState := do
  if rs.wsize = 0 then return rs
  let (osize, rs) ← (List.range rs.wsize.toNat).foldlM
    (chooseInto fuel env x resultMax step firstn recurseToLeaf) (0, rs)
  let o := if recurseToLeaf then rs.c.take osize.toNat ++ rs.o.drop osize.toNat else rs.o
  pure { rs with w := o, o := rs.w, wsize := osize }

/-- One step of a rule. -/
def ruleStep (fuel : ℕ) (env : CrushEnv) (x resultMax : ℤ) (rs : RuleState)
    (step : CrushRuleStep) : Except CrushFault RuleState :=
  match step.op with
  | .take =>
    if (0 ≤ step.arg1 ∧ step.arg1 < env.map.maxDevices) ∨
        (0 ≤ -1 - step.arg1 ∧ -1 - step.arg1 < env.map.buckets.length ∧
          (env.map.bucket (-1 - step.arg1)).isOk) then
      .ok { rs with w := rs.w.set 0 step.arg1, wsize := 1 }
    else .ok rs
  | .setChooseTries =>
    .ok (if 0 < step.arg1 then { rs with chooseTries := UInt32.ofInt step.arg1 } else rs)
  | .setChooseleafTries =>
    .ok (if 0 < step.arg1 then { rs with chooseLeafTries := UInt32.ofInt step.arg1 } else rs)
  | .setChooseLocalTries =>
    .ok (if 0 ≤ step.arg1 then { rs with chooseLocalRetries := UInt32.ofInt step.arg1 } else rs)
  | .setChooseLocalFallbackTries =>
    .ok (if 0 ≤ step.arg1 then { rs with chooseLocalFallbackRetries := UInt32.ofInt step.arg1 }
      else rs)
  | .setChooseleafVaryR =>
    .ok (if 0 ≤ step.arg1 then { rs with varyR := UInt32.ofInt step.arg1 } else rs)
  | .setChooseleafStable =>
    .ok (if 0 ≤ step.arg1 then { rs with stable := UInt32.ofInt step.arg1 } else rs)
  | .chooseFirstn => ruleChoose fuel env x resultMax step true false rs
  | .chooseleafFirstn => ruleChoose fuel env x resultMax step true true rs
  | .chooseIndep => ruleChoose fuel env x resultMax step false false rs
  | .chooseleafIndep => ruleChoose fuel env x resultMax step false true rs
  | .emit =>
    .ok { rs with
      result := rs.result ++ (rs.w.take rs.wsize.toNat).take (resultMax - rs.result.length).toNat,
      wsize := 0 }
  | .noop | .unknown _ => .ok rs

/-- `crush_do_rule`, returning the result vector; a rule number past `max_rules` gives none. -/
def crushDoRule (fuel : ℕ) (map : CrushMap) (ruleno x resultMax : ℤ) (weight : List ℕ)
    (weightMax : ℤ) (work : List WorkBucket) (chooseArgs : Option (List CrushChooseArg)) :
    Except CrushFault (List ℤ) :=
  let env : CrushEnv := ⟨map, weight, weightMax, chooseArgs⟩
  let i := (UInt32.ofInt ruleno).toNat
  if map.rules.length ≤ i then .ok []
  else match map.rules[i]? with
    | some (some steps) =>
      (·.result) <$> steps.foldlM (ruleStep fuel env x resultMax) (RuleState.init map resultMax work)
    | _ => .error .badPointer

/-! ### A retry loop that never exits -/

section Diverge

variable {env : CrushEnv} {a : FirstnArgs} {rep : ℤ} {st : FirstnState} {cur : MapBucket}
  {item : ℤ} {lp : FirstnLoop} {fuel : ℕ}

/-- With `local_retries = 0xffffffff`, `flocal <= local_retries` holds for every `flocal`, so a
collision always retries the bucket. -/
theorem firstnReject_retry (hretries : a.localRetries = 0xffffffff) (lp : FirstnLoop) :
    (firstnReject a lp true).2 = true := by
  have hle : lp.flocal + 1 ≤ a.localRetries := by
    rw [hretries]
    exact UInt32.le_iff_toNat_le.2 (by have := (lp.flocal + 1).toNat_lt; simp; omega)
  simp [firstnReject, hle]

@[simp]
theorem firstnReject_cur (a : FirstnArgs) (lp : FirstnLoop) (collide : Bool) :
    (firstnReject a lp collide).1.cur = lp.cur := by
  dsimp only [firstnReject]
  split_ifs <;> rfl

theorem itemType_of_nonneg (m : CrushMap) (h : 0 ≤ item) : m.itemType item = .ok 0 := by
  simp [CrushMap.itemType, not_lt.2 h]

/-- A bucket whose every choice is an item of the wanted type chosen already collides on every
pass, and each collision retries the same bucket: the `retry_bucket` loop never exits. -/
theorem firstnBucketLoop_collides (hretries : a.localRetries = 0xffffffff)
    (hsize : cur.h.size ≠ 0)
    (hchoose : ∀ fuel flocal r,
      firstnChoose fuel env a st.work cur flocal r st.outpos = .ok (item, st.work))
    (hmax : item < env.map.maxDevices) (htype : env.map.itemType item = .ok a.type)
    (hout : item ∈ st.out.take st.outpos.toNat) :
    ∀ fuel (lp : FirstnLoop), lp.cur = cur →
      firstnBucketLoop env fuel a rep st lp = .error .outOfFuel := by
  intro fuel
  induction fuel with
  | zero => intro lp _; rfl
  | succ fuel ih =>
    intro lp hcur
    subst hcur
    have hcollide : (st.out.take st.outpos.toNat).contains item = true := List.elem_iff.2 hout
    simp only [firstnBucketLoop, hsize, hchoose, htype, hcollide, bind, Except.bind, pure,
      Except.pure, if_false, not_le.2 hmax, ne_eq, not_true_eq_false, Bool.not_true,
      Bool.false_and, Bool.false_eq_true, Bool.or_true, if_true, firstnReject_retry hretries]
    exact ih _ (firstnReject_cur _ _ _)

/-- A pass that chooses a fresh device of the wanted type, not out, ends the retry loop with it
(without `chooseleaf`). -/
theorem firstnBucketLoop_accept (hleaf : a.recurseToLeaf = false) (hsize : lp.cur.h.size ≠ 0)
    (hchoose : firstnChoose fuel env a st.work lp.cur lp.flocal (firstnR a rep lp.ftotal)
      st.outpos = .ok (item, st.work))
    (hdev : 0 ≤ item) (hmax : item < env.map.maxDevices) (htype : a.type = 0)
    (hin : isOut env.weight env.weightMax item a.x = false)
    (hfresh : item ∉ st.out.take st.outpos.toNat) :
    firstnBucketLoop env (fuel + 1) a rep st lp = .ok (st, { lp with item }) := by
  have hcollide : (st.out.take st.outpos.toNat).contains item = false := by
    simpa using hfresh
  simp only [firstnBucketLoop, hsize, hchoose, itemType_of_nonneg _ hdev, htype, hcollide, hleaf,
    hin, bind, Except.bind, pure, Except.pure, if_false, not_le.2 hmax, ne_eq, not_true_eq_false,
    Bool.not_false, Bool.and_false, Bool.false_eq_true, Bool.or_false, Bool.true_and, decide_true,
    if_true]

/-- Replicas from `rep` on: once the choice collides on every pass, the loop never returns. -/
theorem firstnRepLoop_collides (hretries : a.localRetries = 0xffffffff)
    (hsize : a.bucket.h.size ≠ 0)
    (hchoose : ∀ fuel flocal r,
      firstnChoose fuel env a st.work a.bucket flocal r st.outpos = .ok (item, st.work))
    (hmax : item < env.map.maxDevices) (htype : env.map.itemType item = .ok a.type)
    (hout : item ∈ st.out.take st.outpos.toNat) (hrep : rep < a.numrep) (hcount : 0 < st.count) :
    firstnRepLoop env fuel a rep st = .error .outOfFuel := by
  rcases fuel with _ | _ | fuel
  · rfl
  · simp [firstnRepLoop, hrep, hcount, firstnDescentLoop, bind, Except.bind]
  · have hloop : firstnBucketLoop env fuel a rep st ⟨a.bucket, 0, 0, 0, false, false⟩ =
        .error .outOfFuel :=
      firstnBucketLoop_collides hretries hsize hchoose hmax htype hout fuel _ rfl
    simp [firstnRepLoop, hrep, hcount, firstnDescentLoop, bind, Except.bind, hloop]

theorem mem_take_set_self {l : List ℤ} {n : ℕ} (hn : n < l.length) (v : ℤ) :
    v ∈ (l.set n v).take (n + 1) := by
  rw [List.mem_iff_getElem?]
  exact ⟨n, by simp [hn]⟩

/-- A bucket whose every choice is one device `item` of the wanted type, not out: the first
replica takes it, and the next collides with it on every pass. -/
theorem firstnRepLoop_diverges (hretries : a.localRetries = 0xffffffff)
    (hleaf : a.recurseToLeaf = false) (hsize : a.bucket.h.size ≠ 0)
    (hchoose : ∀ fuel work flocal r pos,
      firstnChoose fuel env a work a.bucket flocal r pos = .ok (item, work))
    (hdev : 0 ≤ item) (hmax : item < env.map.maxDevices) (htype : a.type = 0)
    (hin : isOut env.weight env.weightMax item a.x = false)
    (hrep : rep + 1 < a.numrep) (hcount : 1 < st.count) (hpos : 0 ≤ st.outpos)
    (hlen : st.outpos.toNat < st.out.length) (hfresh : item ∉ st.out.take st.outpos.toNat) :
    firstnRepLoop env fuel a rep st = .error .outOfFuel := by
  rcases fuel with _ | _ | _ | fuel
  · rfl
  · simp [firstnRepLoop, show rep < a.numrep by omega, show 0 < st.count by omega,
      firstnDescentLoop, bind, Except.bind]
  · simp [firstnRepLoop, show rep < a.numrep by omega, show 0 < st.count by omega,
      firstnDescentLoop, firstnBucketLoop, bind, Except.bind]
  have haccept : firstnBucketLoop env (fuel + 1) a rep st ⟨a.bucket, 0, 0, 0, false, false⟩ =
      .ok (st, ⟨a.bucket, 0, 0, item, false, false⟩) :=
    firstnBucketLoop_accept hleaf hsize (hchoose _ _ _ _ _) hdev hmax htype hin hfresh
  have hnext : firstnRepLoop env (fuel + 2) a (rep + 1)
      { st with out := st.out.set st.outpos.toNat item, outpos := st.outpos + 1,
                count := st.count - 1 } = .error .outOfFuel := by
    apply firstnRepLoop_collides hretries hsize (fun _ _ _ => hchoose _ _ _ _ _) hmax
      (itemType_of_nonneg _ hdev ▸ htype ▸ rfl) _ hrep (by simp only; omega)
    rw [show (st.outpos + 1).toNat = st.outpos.toNat + 1 by omega]
    exact mem_take_set_self hlen item
  rw [firstnRepLoop, if_pos ⟨by omega, by omega⟩, firstnDescentLoop]
  simp only [bind, Except.bind, haccept, Bool.false_eq_true, if_false]
  exact hnext

end Diverge

/-- `height(0)` does not return, whatever the fuel. -/
theorem heightLoop_zero (fuel h : ℕ) : heightLoop fuel 0 h = .error .outOfFuel := by
  induction fuel generalizing h with
  | zero => rfl
  | succ fuel ih => simpa [heightLoop] using ih (h + 1)

/-- A tree bucket of at most one node starts its descent at node `0`, where `left(0)` calls
`height(0)`: `bucket_tree_choose` does not return. -/
theorem bucketTreeChoose_of_numNodes_le_one {numNodes : ℕ} (hn : numNodes ≤ 1) (fuel : ℕ)
    (b : MapBucket) (nodeWeights : List ℕ) (x r : ℤ) :
    bucketTreeChoose fuel b numNodes nodeWeights x r = .error .outOfFuel := by
  have hroot : ((numNodes / 2 : ℕ) : ℤ) = 0 := by omega
  rcases fuel with _ | fuel
  · rfl
  · simp [bucketTreeChoose, treeDescend, hroot, height, heightLoop_zero, bind, Except.bind]

/-! ### The failing input -/

/-- Bucket `-1`: a straw2 bucket of type `1` whose only item is device `0`. -/
def loneBucket : MapBucket := ⟨-1, 1, ⟨crushHashRjenkins1, 1, [0]⟩, .straw2 [0x10000]⟩

/-- Device `0` under `loneBucket`, the tunables of the `jewel` profile but `choose_local_tries`,
and rule `0`: take `-1`, choose two devices firstn, emit. -/
def loneMap (localTries : UInt32) : CrushMap :=
  ⟨[some loneBucket], [some [⟨.take, -1, 0⟩, ⟨.chooseFirstn, 2, 0⟩, ⟨.emit, 0, 0⟩]], 1,
    localTries, 0, 50, 1, 1, 1⟩

theorem straw2High_of_size_one {b : CrushBucket} (hsize : b.size = 1) (w : List ℕ)
    (ids : List ℤ) (x r : ℤ) : straw2High b w ids x r = 0 := by
  simp [straw2High, hsize, FirstMax.scan, FirstMax.scanStep]

theorem firstnChoose_loneBucket {env : CrushEnv} {a : FirstnArgs}
    (hfallback : a.localFallbackRetries = 0) (fuel : ℕ) (work : List WorkBucket) (flocal : UInt32)
    (r pos : ℤ) : firstnChoose fuel env a work loneBucket flocal r pos = .ok (0, work) := by
  simp [firstnChoose, hfallback, crushBucketChoose, loneBucket, bucketStraw2Choose, straw2Choose,
    straw2High_of_size_one]

theorem firstnRepLoop_loneBucket {env : CrushEnv} {a : FirstnArgs} {rep : ℤ} {st : FirstnState}
    {fuel : ℕ} (hbucket : a.bucket = loneBucket) (hretries : a.localRetries = 0xffffffff)
    (hfallback : a.localFallbackRetries = 0) (hleaf : a.recurseToLeaf = false) (htype : a.type = 0)
    (hmax : 0 < env.map.maxDevices) (hin : isOut env.weight env.weightMax 0 a.x = false)
    (hrep : rep + 1 < a.numrep) (hcount : 1 < st.count) (hpos : st.outpos = 0)
    (hlen : st.out ≠ []) :
    firstnRepLoop env fuel a rep st = .error .outOfFuel := by
  refine firstnRepLoop_diverges hretries hleaf (by simp [hbucket, loneBucket]) ?_ le_rfl hmax htype
    hin hrep hcount (by omega) ?_ (by simp [hpos])
  · intro fuel work flocal r pos
    rw [hbucket]
    exact firstnChoose_loneBucket hfallback fuel work flocal r pos
  · simpa [hpos] using List.length_pos_iff.2 hlen

/-- With `choose_local_tries = 0xffffffff`, rule `0` of `loneMap` does not return for any fuel:
the second replica collides with device `0` on every pass. -/
theorem crushDoRule_loneMap_diverges (fuel : ℕ) :
    crushDoRule fuel (loneMap 0xffffffff) 0 0 2 [0x10000] 1
      (crushInitWorkspace (loneMap 0xffffffff)) none = .error .outOfFuel := by
  have h0 : (UInt32.ofInt 0).toNat = 0 := by decide
  simp +decide [crushDoRule, loneMap, ruleStep, ruleChoose, chooseInto, crushChooseFirstn, h0,
    RuleState.init, crushInitWorkspace, CrushMap.bucket, firstnRepLoop_loneBucket, isOut, bind,
    Except.bind]

/-- With `choose_local_tries = 2` the same rule gives up on the second replica and returns. -/
example : crushDoRule 40 (loneMap 2) 0 0 2 [0x10000] 1 (crushInitWorkspace (loneMap 2)) none =
    .ok [0] := by
  decide +kernel

end Lunule.Crush
