import Lunule.Frag.ForceToLeaf

/-!
How the directory code uses a fragtree (`CInode.cc`, `MDCache.cc`). `pick_dirfrag` sends a dentry
to the leaf that holds the hash of its name, and does not hash the name when the fragtree is
empty. `adjust_dir_fragments` first forces the frag it fragments to a leaf, as the inode may have
been discovered while it was being fragmented, and then splits it. `get_force_dirfrag_bound_set`
and `decode_lock_state` force each frag of a set to a leaf in turn.
-/

namespace Lunule.Frag

open BitPrefix BitPrefix.Cell

namespace FragtreeT

/-- `InodeStoreBase::pick_dirfrag`: the frag of the dentry `dn`. An empty fragtree is the root
frag alone, so the name is hashed only otherwise. -/
def pickDirfrag {α : Type} (tree : FragtreeT) (hashDentryName : α → UInt32) (dn : α) :
    Option FragT :=
  if tree.empty then some rootFrag else tree.get (hashDentryName dn)

/-- The fragtree update at the start of `MDCache::adjust_dir_fragments`: `basefrag` is forced to
a leaf, then split by `bits` when `bits > 0`. -/
def adjustDirFragments (tree : FragtreeT) (basefrag : FragT) (bits : ℤ) : Option FragtreeT := do
  let leaf ← tree.isLeaf basefrag
  let tree ← if leaf = false then Prod.snd <$> tree.forceToLeaf basefrag else some tree
  if bits > 0 then tree.split basefrag bits.toNat true else some tree

variable {tree : FragtreeT}

/-! ## `pick_dirfrag` -/

/-- Skipping the hash on an empty fragtree agrees with `operator[]`: a fragtree with no split
sends every value to the root frag. -/
theorem pickDirfrag_eq_get {α : Type} (tree : FragtreeT) (hashDentryName : α → UInt32) (dn : α) :
    tree.pickDirfrag hashDentryName dn = tree.get (hashDentryName dn) := by
  unfold pickDirfrag
  split_ifs with he
  · have hs : tree.splits = [] := List.isEmpty_iff.1 he
    have h0 : tree.getSplit rootFrag = 0 := by
      rw [getSplit, hs]
      rfl
    have hroot : rootFrag.contains (hashDentryName dn) = true := by
      rw [rootFrag_eq, contains_ofCell]
      exact mem_root.2 (Nat.mod_lt _ (Nat.two_pow_pos _))
    rw [get, getLoop, if_neg (by rw [hroot]; decide), if_pos h0]
  · rfl

/-- `pick_dirfrag` on a valid fragtree returns the leaf frag that holds the hash of the name, the
only one. -/
theorem pickDirfrag_spec {α : Type} (ht : tree.Valid) (hashDentryName : α → UInt32) (dn : α) :
    ∃ f, tree.pickDirfrag hashDentryName dn = some f ∧ tree.IsLeafFrag f ∧
      f.contains (hashDentryName dn) = true ∧
      ∀ g, tree.IsLeafFrag g → g.contains (hashDentryName dn) = true → g = f := by
  rw [pickDirfrag_eq_get]
  exact get_spec ht _

/-! ## `adjust_dir_fragments` -/

/-- The fragtree update of `adjust_dir_fragments` on a valid fragtree, for a split within the 24
bits, returns a valid fragtree whose leaves under `basefrag` are the frags of its split, and
whose leaves elsewhere change only where `basefrag` is. -/
theorem adjustDirFragments_spec (ht : tree.Valid) (x : Cell 24) (bits : ℤ)
    (hb : x.bits + bits.toNat ≤ 24) :
    ∃ tree', tree.adjustDirFragments (ofCell x) bits = some tree' ∧ tree'.Valid ∧
      SplitsTo tree.view tree'.view x bits.toNat := by
  have hsplit : ∀ tree₁ : FragtreeT, tree₁.Valid → LeafAt tree.view tree₁.view x →
      ∃ tree', (if bits > 0 then tree₁.split (ofCell x) bits.toNat true else some tree₁) =
        some tree' ∧ tree'.Valid ∧ SplitsTo tree.view tree'.view x bits.toNat := by
    intro tree₁ ht₁ hl₁
    by_cases hpos : bits > 0
    · obtain ⟨tree₂, h₂, ht₂, hl₂⟩ := split_spec ht₁ hl₁.leaf (b := bits.toNat) (by omega) hb true
      exact ⟨tree₂, by rw [if_pos hpos]; exact h₂, ht₂, hl₁.splitsTo_of_split hl₂⟩
    · have h0 : bits.toNat = 0 := by omega
      exact ⟨tree₁, by rw [if_neg hpos], ht₁, h0 ▸ hl₁.splitsTo_zero⟩
  obtain ⟨b, hb', hiff⟩ := isLeaf_spec ht x
  rw [adjustDirFragments, hb', Option.bind_eq_bind, Option.bind_some]
  cases b with
  | true => exact hsplit tree ht (LeafAt.refl (hiff.1 rfl))
  | false =>
    obtain ⟨changed, tree₁, hf, ht₁, -, -, hl₁⟩ := forceToLeaf_spec ht x
    rw [hf]
    exact hsplit tree₁ ht₁ hl₁

/-! ## Forcing a set of frags to leaves -/

/-- Forcing frags to leaves one after another, as `get_force_dirfrag_bound_set` and
`decode_lock_state` do: when the frags are apart, each stays a leaf once forced, so all end as
leaves, the fragtree stays valid, and the leaves apart from all of them stay. The induction is on
the frags left. -/
theorem foldlM_forceToLeaf_spec : ∀ (xs : List (Cell 24)) (tree : FragtreeT), tree.Valid →
    xs.Pairwise Apart →
    ∃ tree', (xs.map ofCell).foldlM (fun tree f => Prod.snd <$> tree.forceToLeaf f) tree =
        some tree' ∧ tree'.Valid ∧ (∀ x ∈ xs, IsLeaf tree'.view x) ∧
      ∀ l, IsLeaf tree.view l → (∀ x ∈ xs, Apart l x) → IsLeaf tree'.view l
  | [], tree, ht, _ => ⟨tree, rfl, ht, fun _ h => absurd h List.not_mem_nil, fun _ hl _ => hl⟩
  | x :: xs, tree, ht, hxs => by
    obtain ⟨hx, hxs⟩ := List.pairwise_cons.1 hxs
    obtain ⟨changed, tree₁, hf, ht₁, -, -, hl₁⟩ := forceToLeaf_spec ht x
    obtain ⟨tree', h', ht', hall, hkeep⟩ := foldlM_forceToLeaf_spec xs tree₁ ht₁ hxs
    refine ⟨tree', ?_, ht', fun y hy => ?_, fun l hl hap => ?_⟩
    · rw [List.map_cons, List.foldlM_cons, hf]
      exact h'
    · rcases List.mem_cons.1 hy with rfl | hy
      · exact hkeep y hl₁.leaf hx
      · exact hall y hy
    · exact hkeep l (hl₁.keep l hl (hap x List.mem_cons_self)) fun z hz =>
        hap z (List.mem_cons_of_mem x hz)

end FragtreeT

end Lunule.Frag
