import Lunule.Frag
import Lunule.OrdMap

/-!
`fragtree_t` (`frag.h`): the partition of a directory's hash space into frags, kept as the map
`_splits` from each split frag to the number of bits it is split by. A frag not in the map is
not split. The leaves are never stored: `operator[]` walks from the root into the child that
holds the value, and the queries climb to a split point (`get_branch`, `get_branch_or_leaf`) and
then search below it with a queue (`get_leaves_under`, `contains`) or a stack
(`get_leaves_under_split`).

`force_to_leaf` makes a frag a leaf with these modifiers, splitting down to it or merging all
under it.

`_splits` is a `compact_map<frag_t, int32_t>`, an association list sorted by frag; its lookups
tell keys apart through the order of `frag_t`. The split counts are natural numbers: nothing
stores a negative one. The loops of the source run until their queue empties or their frag
reaches the root; here they carry fuel, which runs out only on maps that are not trees: a tree
of frags of at most 24 bits has fewer than `2 ^ 25` frags, and a walk from the root takes at
most 24 steps. Where the source asserts, the model returns `none`.
-/

namespace Lunule.Frag

/-- `frag_t()`, the root frag. -/
def rootFrag : FragT := ⟨0⟩

/-- `compact_map<frag_t, …>` tells keys apart through the order of `frag_t`. -/
abbrev fragKeyEq : DecidableEq FragT := fun a b => LinearOrder.toDecidableEq a b

structure FragtreeT where
  splits : List (FragT × ℕ)

namespace FragtreeT

/-- `clear()`: no frag is split. -/
def clear (_tree : FragtreeT) : FragtreeT := ⟨[]⟩

def empty (tree : FragtreeT) : Bool := tree.splits.isEmpty

def getSplit (tree : FragtreeT) (hb : FragT) : ℕ :=
  (@OrdMap.find? FragT ℕ fragKeyEq tree.splits hb).getD 0

/-- `_splits[x] = b`. -/
def setSplit (tree : FragtreeT) (x : FragT) (b : ℕ) : FragtreeT := ⟨OrdMap.set tree.splits x b⟩

/-- `_splits.erase(x)`. -/
def eraseSplit (tree : FragtreeT) (x : FragT) : FragtreeT :=
  ⟨@OrdMap.erase FragT ℕ fragKeyEq tree.splits x⟩

/-! ## Queries -/

/-- The loop of `get_branch`: the frag itself or the first split frag above it. -/
def getBranchLoop (tree : FragtreeT) : ℕ → FragT → Option FragT
  | fuel, x =>
    if x = rootFrag then some x
    else if tree.getSplit x ≠ 0 then some x
    -- `parent()` asserts that the frag has bits
    else if x.bits = 0 then none
    else match fuel with
      | 0 => none
      | fuel + 1 => getBranchLoop tree fuel x.parent

def getBranch (tree : FragtreeT) (x : FragT) : Option FragT := tree.getBranchLoop x.bits.toNat x

/-- The loop of `get_branch_above`: the first split frag strictly above, or the root. -/
def getBranchAboveLoop (tree : FragtreeT) : ℕ → FragT → Option FragT
  | fuel, x =>
    if x = rootFrag then some x
    else if x.bits = 0 then none
    else if tree.getSplit x.parent ≠ 0 then some x.parent
    else match fuel with
      | 0 => none
      | fuel + 1 => getBranchAboveLoop tree fuel x.parent

def getBranchAbove (tree : FragtreeT) (x : FragT) : Option FragT :=
  tree.getBranchAboveLoop x.bits.toNat x

/-- `get_branch_or_leaf`: the branch point at or above `x`, or the child of it that is or holds
`x`. -/
def getBranchOrLeaf (tree : FragtreeT) (x : FragT) : Option FragT := do
  let branch ← tree.getBranch x
  let nb := tree.getSplit branch
  if 0 < nb ∧ branch.bits.toNat + nb ≤ x.bits.toNat then
    some (FragT.make x.value (branch.bits + nb.toUInt32))
  else some branch

/-- The queue loop of `get_leaves_under`: frags as specific as `x` and not in it are skipped,
split frags queue their children, and leaves in `x` are listed. -/
def getLeavesUnderLoop (tree : FragtreeT) (x : FragT) : ℕ → List FragT → List FragT →
    Option (List FragT)
  | _, [], ls => some ls
  | 0, _ :: _, _ => none
  | fuel + 1, t :: q, ls =>
    if x.bits ≤ t.bits ∧ x.containsFrag t = false then getLeavesUnderLoop tree x fuel q ls
    else if tree.getSplit t ≠ 0 then
      getLeavesUnderLoop tree x fuel (q ++ t.split (tree.getSplit t)) ls
    else getLeavesUnderLoop tree x fuel q (if x.containsFrag t then ls ++ [t] else ls)

/-- `get_leaves_under`: the leaves contained by `x`. -/
def getLeavesUnder (tree : FragtreeT) (x : FragT) : Option (List FragT) := do
  let start ← tree.getBranchOrLeaf x
  tree.getLeavesUnderLoop x (2 ^ 25) [start] []

def isLeaf (tree : FragtreeT) (x : FragT) : Option Bool := do
  let ls ← tree.getLeavesUnder x
  some (!ls.isEmpty && ls.head? == some x && ls.length == 1)

/-- The stack loop of `get_leaves_under_split`, with the stack kept top first: a split frag
pushes its children, a leaf goes to the front of the list. -/
def getLeavesUnderSplitLoop (tree : FragtreeT) : ℕ → List FragT → List FragT →
    Option (List FragT)
  | _, [], ls => some ls
  | 0, _ :: _, _ => none
  | fuel + 1, t :: q, ls =>
    if tree.getSplit t ≠ 0 then
      getLeavesUnderSplitLoop tree fuel ((t.split (tree.getSplit t)).reverse ++ q) ls
    else getLeavesUnderSplitLoop tree fuel q (t :: ls)

def getLeavesUnderSplit (tree : FragtreeT) (under : FragT) : Option (List FragT) :=
  tree.getLeavesUnderSplitLoop (2 ^ 25) [under] []

def getLeaves (tree : FragtreeT) : Option (List FragT) := tree.getLeavesUnderSplit rootFrag

/-- The queue loop of `contains(fg)`: `x` is found as a leaf, or as a split frag. -/
def containsLoop (tree : FragtreeT) (x : FragT) : ℕ → List FragT → Option Bool
  | _, [] => some false
  | 0, _ :: _ => none
  | fuel + 1, t :: q =>
    if x.bits ≤ t.bits ∧ x.containsFrag t = false then containsLoop tree x fuel q
    else if tree.getSplit t ≠ 0 then
      if t = x then some false
      else containsLoop tree x fuel (q ++ t.split (tree.getSplit t))
    else if t = x then some true
    else containsLoop tree x fuel q

/-- `contains(fg)`: whether `x` is a leaf. -/
def contains (tree : FragtreeT) (x : FragT) : Option Bool := do
  let branch ← tree.getBranch x
  tree.containsLoop x (2 ^ 25) [branch]

/-- The loop of `operator[]`: from a frag that holds `v`, into the first child that holds it,
while the frag is split. The source asserts that the frag holds `v` and that a child does. -/
def getLoop (tree : FragtreeT) (v : UInt32) : ℕ → FragT → Option FragT
  | fuel, t =>
    if t.contains v = false then none
    else if tree.getSplit t = 0 then some t
    else match (List.range (2 ^ tree.getSplit t)).find?
        (fun i => (t.makeChild i (tree.getSplit t)).contains v) with
      | none => none
      | some i => match fuel with
        | 0 => none
        | fuel + 1 => getLoop tree v fuel (t.makeChild i (tree.getSplit t))

/-- `operator[]`: the leaf that holds the value. -/
def get (tree : FragtreeT) (v : UInt32) : Option FragT := tree.getLoop v 24 rootFrag

/-! ## Modifiers -/

/-- The loop of `try_assimilate_children` over the splits of the children: the common split
when every child is split, all by the same number of bits. -/
def childbitsLoop : List ℕ → ℕ → Option ℕ
  | [], childbits => some childbits
  | cb :: cbs, childbits =>
    if cb = 0 then none
    else if childbits ≠ 0 ∧ cb ≠ childbits then none
    else childbitsLoop cbs cb

/-- `try_assimilate_children`: when every child of `x` is split by the same bits, they go, and
`x` is split by those bits more. -/
def tryAssimilateChildren (tree : FragtreeT) (x : FragT) : FragtreeT :=
  if tree.getSplit x = 0 then tree
  else match childbitsLoop ((x.split (tree.getSplit x)).map tree.getSplit) 0 with
    | none => tree
    | some childbits =>
      let tree' := (x.split (tree.getSplit x)).foldl eraseSplit tree
      tree'.setSplit x (tree'.getSplit x + childbits)

/-- `split(x, b, simplify)`. The source asserts that `x` is a leaf. -/
def split (tree : FragtreeT) (x : FragT) (b : ℕ) (simplify : Bool) : Option FragtreeT := do
  let leaf ← tree.isLeaf x
  if leaf = false then none
  else
    let tree := tree.setSplit x b
    if simplify then do
      let branch ← tree.getBranchAbove x
      some (tree.tryAssimilateChildren branch)
    else some tree

/-- `merge(x, b, simplify)`. The source asserts that `x` is not a leaf and is split by `b`. -/
def merge (tree : FragtreeT) (x : FragT) (b : ℕ) (simplify : Bool) : Option FragtreeT := do
  let leaf ← tree.isLeaf x
  if leaf = true then none
  else if tree.getSplit x ≠ b then none
  else
    let tree := tree.eraseSplit x
    if simplify then do
      let branch ← tree.getBranchAbove x
      some (tree.tryAssimilateChildren branch)
    else some tree

/-- The loop of `force_to_leaf` that hoovers up what is under `x`: a split frag taken from the
queue is merged, and the frags of its split join the back of the queue. -/
def hooverLoop : ℕ → FragtreeT → List FragT → Option FragtreeT
  | _, tree, [] => some tree
  | 0, _, _ :: _ => none
  | fuel + 1, tree, t :: q =>
    if tree.getSplit t ≠ 0 then do
      let tree' ← tree.merge t (tree.getSplit t) false
      hooverLoop fuel tree' (q ++ t.split (tree.getSplit t))
    else hooverLoop fuel tree q

/-- The end of `force_to_leaf`: hoover up what is under `x`; the source asserts that `x` is then
a leaf. -/
def hoover (tree : FragtreeT) (x : FragT) : Option (Bool × FragtreeT) := do
  let tree ← hooverLoop (2 ^ 25) tree [x]
  let leaf ← tree.isLeaf x
  if leaf = false then none else some (true, tree)

/-- `force_to_leaf(x)`: makes `x` a leaf, by splitting down to it from the leaf that holds it or
by merging all under it, and tells whether the tree changed. Under a split whose frags are
below `x`, it first puts in a split down to `x`'s bits. -/
def forceToLeaf (tree : FragtreeT) (x : FragT) : Option (Bool × FragtreeT) := do
  let leaf ← tree.isLeaf x
  if leaf then some (false, tree)
  else
    let parent ← tree.getBranchOrLeaf x
    if ¬ parent.bits ≤ x.bits then none
    else if parent.bits < x.bits then
      let spread := x.bits.toNat - parent.bits.toNat
      let nb := tree.getSplit parent
      if nb = 0 then do
        let tree ← tree.split parent spread true
        let leaf ← tree.isLeaf x
        if leaf = false then none else some (true, tree)
      else if ¬ spread < nb then none
      else do
        let tree ← tree.merge parent nb false
        let tree ← tree.split parent spread false
        let tree ← (parent.split spread).foldlM
          (fun tree p => tree.split p (nb - spread) false) tree
        tree.hoover x
    else tree.hoover x

end FragtreeT

end Lunule.Frag
