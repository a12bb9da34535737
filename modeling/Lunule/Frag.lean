import Mathlib.Data.Finset.Max

/-!
Frags (`ceph_frag.h`, `frag.h`). A frag names the hash values whose leading bits, among the
24 low bits of the 32-bit hash, read a given prefix. It is packed into one word: the number of
bits in the upper byte and the prefix, left-aligned, in the lower 24. `frag_t` wraps the word
and orders frags by it. `fragset_t` keeps a `std::set` of frags and, after every insert, merges
each frag whose sibling is in the set into their parent until a whole pass merges nothing.

The word operations are taken on `UInt32` as the source does. Shifts by `24 - b` are shifts by
less than 32 for the `b ≤ 24` that frags carry; Lean reduces larger shift amounts modulo 32
where C leaves them undefined. A `std::set` is a finite set iterated in increasing order: the
iterator moves to the least element above the one it points to. The split helpers of
`frag_t` (`make_child`, `split`, `mask_shift`, `contains(frag_t)`) are here for `fragtree_t`;
its iteration helpers (`next`, `left_child`, `parse`) are not modelled.
-/

namespace Lunule.Frag

/-! ## ceph_frag.h -/

def cephFragMake (b v : UInt32) : UInt32 :=
  (b <<< 24) ||| (v &&& ((0xffffff : UInt32) <<< (24 - b)) &&& 0xffffff)

def cephFragBits (f : UInt32) : UInt32 := f >>> 24

def cephFragValue (f : UInt32) : UInt32 := f &&& 0xffffff

def cephFragMask (f : UInt32) : UInt32 :=
  ((0xffffff : UInt32) <<< (24 - cephFragBits f)) &&& 0xffffff

def cephFragContainsValue (f v : UInt32) : Bool := (v &&& cephFragMask f) == cephFragValue f

def cephFragParent (f : UInt32) : UInt32 :=
  cephFragMake (cephFragBits f - 1) (cephFragValue f &&& (cephFragMask f <<< 1))

/-- `0x1000000 >> bits` is the last bit of the prefix. -/
def cephFragSibling (f : UInt32) : UInt32 :=
  cephFragMake (cephFragBits f) (cephFragValue f ^^^ ((0x1000000 : UInt32) >>> cephFragBits f))

def cephFragMaskShift (f : UInt32) : UInt32 := 24 - cephFragBits f

/-- Whether `sub` is as specific as `f` and contained by it. -/
def cephFragContainsFrag (f sub : UInt32) : Bool :=
  decide (cephFragBits f ≤ cephFragBits sub) && (cephFragValue sub &&& cephFragMask f) == cephFragValue f

/-- The child `i` of `f` split by `nb` bits. `nb` and `i` are `int`s in the source and enter
the word operations as `__u32`. -/
def cephFragMakeChild (f nb i : UInt32) : UInt32 :=
  cephFragMake (cephFragBits f + nb) (cephFragValue f ||| (i <<< (24 - (cephFragBits f + nb))))

/-! ## frag_t -/

@[ext]
structure FragT where
  enc : UInt32
deriving DecidableEq, Repr

namespace FragT

/-- The constructor `frag_t(v, b)`. -/
def make (v b : UInt32) : FragT := ⟨cephFragMake b v⟩

def value (f : FragT) : UInt32 := cephFragValue f.enc

def bits (f : FragT) : UInt32 := cephFragBits f.enc

def mask (f : FragT) : UInt32 := cephFragMask f.enc

def contains (f : FragT) (v : UInt32) : Bool := cephFragContainsValue f.enc v

def isRoot (f : FragT) : Bool := f.bits == 0

/-- The source asserts `bits() > 0`; its callers test for the root first. -/
def parent (f : FragT) : FragT := ⟨cephFragParent f.enc⟩

/-- The source asserts `!is_root()`; its callers test for the root first. -/
def getSibling (f : FragT) : FragT := ⟨cephFragSibling f.enc⟩

def maskShift (f : FragT) : UInt32 := cephFragMaskShift f.enc

/-- `contains(frag_t sub)`. -/
def containsFrag (f sub : FragT) : Bool := cephFragContainsFrag f.enc sub.enc

/-- `make_child(i, nb)`; the source asserts `i < 1 << nb`. -/
def makeChild (f : FragT) (i nb : ℕ) : FragT :=
  ⟨cephFragMakeChild f.enc nb.toUInt32 i.toUInt32⟩

/-- `split(nb, fragments)`: the `1 << nb` children in order, appended to the list. -/
def split (f : FragT) (nb : ℕ) : List FragT := (List.range (2 ^ nb)).map fun i => f.makeChild i nb

theorem parent_eq_make (f : FragT) : f.parent = make (f.value &&& (f.mask <<< 1)) (f.bits - 1) :=
  rfl

theorem getSibling_eq_make (f : FragT) :
    f.getSibling = make (f.value ^^^ ((0x1000000 : UInt32) >>> f.bits)) f.bits :=
  rfl

theorem contains_eq (f : FragT) (v : UInt32) : f.contains v = ((v &&& f.mask) == f.value) := rfl

end FragT

/-- `std::set<frag_t>` compares frags through their conversion to the encoded word. -/
instance fragTLinearOrder : LinearOrder FragT :=
  LinearOrder.lift' (fun f => f.enc.toNat) fun _ _ h => FragT.ext (UInt32.toNat_inj.mp h)

/-! ## fragset_t -/

structure FragsetT where
  set : Finset FragT

namespace FragsetT

/-- The loop of `fragset_t::contains`: the frag is looked up, then each of its ancestors up
to the root. The fuel counts the bits still to drop and runs out only past the root. -/
def containsLoop (s : Finset FragT) : ℕ → FragT → Bool
  | fuel, f =>
    if f ∈ s then true
    else if f.bits = 0 then false
    else match fuel with
      | 0 => false
      | fuel + 1 => containsLoop s fuel f.parent

def contains (fs : FragsetT) (f : FragT) : Bool := containsLoop fs.set f.bits.toNat f

/-- The body of `simplify`'s inner loop at the frag `p` the iterator points to: when the
sibling of `p` is in the set, the sibling goes, the parent comes in, and `p` goes. -/
def passStep (s : Finset FragT) (clean : Bool) (p : FragT) : Finset FragT × Bool :=
  if p.isRoot = false ∧ p.getSibling ∈ s then
    ((insert p.parent (s.erase p.getSibling)).erase p, false)
  else (s, clean)

/-- The frags the iterator has still to visit when it points to `p`. -/
def after (s : Finset FragT) (p : FragT) : Finset FragT := s.filter (p < ·)

/-- `simplify`'s inner loop from the frag `p`, with the flag `clean` of the pass. The
iterator's frag rises at every step, so the `2 ^ 32` words bound the steps. -/
def simplifyPass : ℕ → Finset FragT → Bool → FragT → Finset FragT × Bool
  | 0, s, clean, _ => (s, clean)
  | fuel + 1, s, clean, p =>
    let r := passStep s clean p
    if h : (after r.1 p).Nonempty then simplifyPass fuel r.1 r.2 ((after r.1 p).min' h) else r

/-- One pass of `simplify`'s outer loop, from `begin()`. -/
def simplifyOnce (s : Finset FragT) : Finset FragT × Bool :=
  if h : s.Nonempty then simplifyPass (2 ^ 32) s true (s.min' h) else (s, true)

/-- `simplify`'s outer loop: passes until one is clean; `none` when the passes run out. -/
def simplifyLoop : ℕ → Finset FragT → Option (Finset FragT)
  | 0, _ => none
  | fuel + 1, s =>
    let r := simplifyOnce s
    if r.2 then some r.1 else simplifyLoop fuel r.1

/-- Every pass that is not clean merges two frags into one, so one pass more than the set
has frags suffices. -/
def simplify (fs : FragsetT) : Option FragsetT :=
  (simplifyLoop (fs.set.card + 1) fs.set).map FragsetT.mk

def insert (fs : FragsetT) (f : FragT) : Option FragsetT := simplify ⟨Insert.insert f fs.set⟩

end FragsetT

end Lunule.Frag
