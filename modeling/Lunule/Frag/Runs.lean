import Lunule.Frag.Dirfrag

/-!
Runs of the fragtree modifiers. A directory's fragtree starts cleared and changes by `split` and
`merge`, by `force_to_leaf`, and by the fragtree update of `adjust_dir_fragments`. Each change
keeps the fragtree valid, so on every fragtree of such a run the leaves partition the hash space
and every query and modifier behaves as its specification on valid fragtrees says.
-/

namespace Lunule.Frag

open BitPrefix BitPrefix.Cell

namespace FragtreeT

variable {tree : FragtreeT}

/-- A change the directory code makes to a fragtree: `split` of a canonical frag by bits within
the 24, `merge` of a frag by the bits it is split by when the frags of that split are not split,
`force_to_leaf` of a canonical frag, and the fragtree update of `adjust_dir_fragments` for a
canonical frag and a split within the 24 bits. -/
inductive Step : FragtreeT → FragtreeT → Prop
  | split {tree tree' : FragtreeT} {x : FragT} {b : ℕ} {simplify : Bool} :
      x.Canonical → 0 < b → x.bits.toNat + b ≤ 24 → tree.split x b simplify = some tree' →
      Step tree tree'
  | merge {tree tree' : FragtreeT} {x : FragT} {b : ℕ} {simplify : Bool} :
      (∀ f ∈ x.split b, tree.getSplit f = 0) → tree.merge x b simplify = some tree' →
      Step tree tree'
  | forceToLeaf {tree tree' : FragtreeT} {x : FragT} {changed : Bool} :
      x.Canonical → tree.forceToLeaf x = some (changed, tree') → Step tree tree'
  | adjustDirFragments {tree tree' : FragtreeT} {basefrag : FragT} {bits : ℤ} :
      basefrag.Canonical → basefrag.bits.toNat + bits.toNat ≤ 24 →
      tree.adjustDirFragments basefrag bits = some tree' → Step tree tree'

/-- The fragtrees a run of changes builds from a cleared one. -/
inductive Reachable : FragtreeT → Prop
  | clear (tree : FragtreeT) : Reachable tree.clear
  | step {tree tree' : FragtreeT} : Reachable tree → Step tree tree' → Reachable tree'

/-- Each change keeps a fragtree valid. -/
theorem Step.valid {tree tree' : FragtreeT} (ht : tree.Valid) (hs : Step tree tree') :
    tree'.Valid := by
  cases hs with
  | split hx hb0 hb h =>
    obtain ⟨c, rfl⟩ := hx.exists_ofCell
    obtain ⟨hleaf, hcases⟩ := split_eq_some h
    obtain ⟨bl, hbl, hiff⟩ := isLeaf_spec ht c
    have hc : IsLeaf tree.view c := hiff.1 (Option.some_injective _ (hbl.symm.trans hleaf))
    rw [bits_ofCell] at hb
    have hval := (setSplit_spec ht hc hb0 hb).1
    rcases hcases with ⟨-, rfl⟩ | ⟨br, -, -, rfl⟩
    · exact hval
    · exact (tryAssimilateChildren_spec hval br).1
  | merge hch h =>
    obtain ⟨-, hb, hcases⟩ := merge_eq_some h
    have hval := eraseSplit_valid ht hb hch
    rcases hcases with ⟨-, rfl⟩ | ⟨br, -, -, rfl⟩
    · exact hval
    · exact (tryAssimilateChildren_spec hval br).1
  | forceToLeaf hx h =>
    obtain ⟨c, rfl⟩ := hx.exists_ofCell
    obtain ⟨changed, tree'', hf, hval, -⟩ := forceToLeaf_spec ht c
    rw [hf] at h
    cases h
    exact hval
  | adjustDirFragments hx hb h =>
    obtain ⟨c, rfl⟩ := hx.exists_ofCell
    rw [bits_ofCell] at hb
    obtain ⟨tree'', ha, hval, -⟩ := adjustDirFragments_spec ht c _ hb
    rw [ha] at h
    cases h
    exact hval

/-- Every fragtree a run builds from a cleared one is valid. The induction is on the run. -/
theorem Reachable.valid (h : Reachable tree) : tree.Valid := by
  induction h with
  | clear tree => exact valid_clear tree
  | step _ hs ih => exact hs.valid ih

/-- The cleared fragtree with its root split by two bits, built by one `split`. -/
theorem reachable_rootSplit : Reachable ⟨[(rootFrag, 2)]⟩ :=
  .step (.clear ⟨[]⟩) (@Step.split _ _ rootFrag 2 true (by decide) (by decide) (by decide) rfl)

/-- In that fragtree only the root is split. -/
theorem view_rootSplit {c : Cell 24} (hc : c ≠ root) : (⟨[(rootFrag, 2)]⟩ : FragtreeT).view c = 0 := by
  show (FragtreeT.setSplit ⟨[]⟩ rootFrag 2).getSplit (ofCell c) = 0
  rw [getSplit_setSplit, if_neg fun h => hc ((ofCell_eq_rootFrag_iff c).1 h)]
  rfl

/-! ## Queries on the fragtrees of a run -/

/-- On every fragtree of a run, `operator[]` sends each value to the one leaf frag that holds
it: the leaves partition the hash space. -/
theorem reachable_get (h : Reachable tree) (v : UInt32) :
    ∃ f, tree.get v = some f ∧ tree.IsLeafFrag f ∧ f.contains v = true ∧
      ∀ g, tree.IsLeafFrag g → g.contains v = true → g = f :=
  get_spec h.valid v

theorem reachable_get_rootSplit :
    ∃ f, (⟨[(rootFrag, 2)]⟩ : FragtreeT).get 0xC00000 = some f ∧
      FragtreeT.IsLeafFrag ⟨[(rootFrag, 2)]⟩ f ∧ f.contains 0xC00000 = true ∧
      ∀ g, FragtreeT.IsLeafFrag ⟨[(rootFrag, 2)]⟩ g → g.contains 0xC00000 = true → g = f :=
  reachable_get reachable_rootSplit 0xC00000

/-- On every fragtree of a run, `get_leaves` lists the leaf frags, each once. -/
theorem reachable_getLeaves (h : Reachable tree) :
    ∃ r, tree.getLeaves = some r ∧ r.Nodup ∧ ∀ f, f ∈ r ↔ tree.IsLeafFrag f :=
  getLeaves_spec h.valid

theorem reachable_getLeaves_rootSplit :
    ∃ r, (⟨[(rootFrag, 2)]⟩ : FragtreeT).getLeaves = some r ∧ r.Nodup ∧
      ∀ f, f ∈ r ↔ FragtreeT.IsLeafFrag ⟨[(rootFrag, 2)]⟩ f :=
  reachable_getLeaves reachable_rootSplit

/-- On every fragtree of a run, `get_leaves_under(x)` lists the leaf frags that `x` contains,
each once. -/
theorem reachable_getLeavesUnder (h : Reachable tree) (x : Cell 24) :
    ∃ r, tree.getLeavesUnder (ofCell x) = some r ∧ r.Nodup ∧
      ∀ f, f ∈ r ↔ tree.IsLeafFrag f ∧ (ofCell x).containsFrag f = true :=
  getLeavesUnder_spec h.valid x

theorem reachable_getLeavesUnder_rootSplit :
    ∃ r, (⟨[(rootFrag, 2)]⟩ : FragtreeT).getLeavesUnder (ofCell ⟨1, 1, by decide, by decide⟩) =
        some r ∧ r.Nodup ∧ ∀ f, f ∈ r ↔ FragtreeT.IsLeafFrag ⟨[(rootFrag, 2)]⟩ f ∧
          (ofCell ⟨1, 1, by decide, by decide⟩).containsFrag f = true :=
  reachable_getLeavesUnder reachable_rootSplit _

/-- On every fragtree of a run, `is_leaf(x)` and `contains(x)`, which searches with an early
exit, agree, and tell whether `x` is a leaf. -/
theorem reachable_isLeaf_contains (h : Reachable tree) (x : Cell 24) :
    ∃ b, tree.isLeaf (ofCell x) = some b ∧ tree.contains (ofCell x) = some b ∧
      (b = true ↔ IsLeaf tree.view x) := by
  obtain ⟨b, hb, hiff⟩ := isLeaf_spec h.valid x
  obtain ⟨b', hb', hiff'⟩ := contains_spec h.valid x
  obtain rfl : b' = b := Bool.eq_iff_iff.2 (hiff'.trans hiff.symm)
  exact ⟨b', hb, hb', hiff⟩

theorem reachable_isLeaf_contains_rootSplit :
    ∃ b, (⟨[(rootFrag, 2)]⟩ : FragtreeT).isLeaf (ofCell root) = some b ∧
      (⟨[(rootFrag, 2)]⟩ : FragtreeT).contains (ofCell root) = some b ∧
      (b = true ↔ IsLeaf (⟨[(rootFrag, 2)]⟩ : FragtreeT).view root) :=
  reachable_isLeaf_contains reachable_rootSplit root

/-- On every fragtree of a run, `pick_dirfrag` sends a dentry to the one leaf frag that holds the
hash of its name, and its shortcut for an empty fragtree agrees with `operator[]`. -/
theorem reachable_pickDirfrag {α : Type} (h : Reachable tree) (hashDentryName : α → UInt32)
    (dn : α) :
    tree.pickDirfrag hashDentryName dn = tree.get (hashDentryName dn) ∧
      ∃ f, tree.pickDirfrag hashDentryName dn = some f ∧ tree.IsLeafFrag f ∧
        f.contains (hashDentryName dn) = true ∧
        ∀ g, tree.IsLeafFrag g → g.contains (hashDentryName dn) = true → g = f :=
  ⟨pickDirfrag_eq_get tree hashDentryName dn, pickDirfrag_spec h.valid hashDentryName dn⟩

theorem reachable_pickDirfrag_clear :
    (FragtreeT.clear ⟨[]⟩).pickDirfrag UInt32.ofNat 7 =
        (FragtreeT.clear ⟨[]⟩).get (UInt32.ofNat 7) ∧
      ∃ f, (FragtreeT.clear ⟨[]⟩).pickDirfrag UInt32.ofNat 7 = some f ∧
        (FragtreeT.clear ⟨[]⟩).IsLeafFrag f ∧ f.contains (UInt32.ofNat 7) = true ∧
        ∀ g, (FragtreeT.clear ⟨[]⟩).IsLeafFrag g → g.contains (UInt32.ofNat 7) = true → g = f :=
  reachable_pickDirfrag (.clear ⟨[]⟩) UInt32.ofNat 7

/-! ## Changes on the fragtrees of a run -/

/-- On every fragtree of a run, `split` of a leaf by bits within the 24 goes through, whether it
simplifies or not, and puts the frags of the split in place of the leaf; the fragtree it gives
is one of a run. -/
theorem reachable_split (h : Reachable tree) {x : Cell 24} (hx : IsLeaf tree.view x) {b : ℕ}
    (hb0 : 0 < b) (hb : x.bits + b ≤ 24) (simplify : Bool) :
    ∃ tree', tree.split (ofCell x) b simplify = some tree' ∧ Reachable tree' ∧
      ∀ l, IsLeaf tree'.view l ↔ (IsLeaf tree.view l ∧ l ≠ x ∨ x.Above l ∧ l.bits = x.bits + b) := by
  obtain ⟨tree', hs, -, hl⟩ := split_spec h.valid hx hb0 hb simplify
  exact ⟨tree', hs, h.step (.split (canonical_ofCell x) hb0 (by rw [bits_ofCell]; exact hb) hs), hl⟩

theorem reachable_split_clear :
    ∃ tree', (FragtreeT.clear ⟨[]⟩).split (ofCell root) 2 true = some tree' ∧ Reachable tree' ∧
      ∀ l, IsLeaf tree'.view l ↔ (IsLeaf (FragtreeT.clear ⟨[]⟩).view l ∧ l ≠ root ∨
        root.Above l ∧ l.bits = (root : Cell 24).bits + 2) :=
  reachable_split (.clear ⟨[]⟩) ⟨.refl, rfl⟩ (by decide) (by decide) true

/-- On every fragtree of a run, `merge` of a split frag by its split, when the frags of that
split are not split, goes through, whether it simplifies or not, and makes the frag the leaf of
all under it; the fragtree it gives is one of a run. -/
theorem reachable_merge (h : Reachable tree) {x : Cell 24} (hpos : 0 < tree.view x)
    (hleaves : ∀ c, x.Above c → c.bits = x.bits + tree.view x → tree.view c = 0)
    (simplify : Bool) :
    ∃ tree', tree.merge (ofCell x) (tree.view x) simplify = some tree' ∧ Reachable tree' ∧
      ∀ l, IsLeaf tree'.view l ↔ (IsLeaf tree.view l ∧ ¬ x.Above l ∨ l = x) := by
  obtain ⟨tree', hm, -, hl⟩ := merge_spec h.valid hpos hleaves simplify
  have hb := h.valid.isTree.bound x hpos
  refine ⟨tree', hm, h.step (.merge (fun f hf => ?_) hm), hl⟩
  rw [split_ofCell x hb] at hf
  obtain ⟨c, hc, rfl⟩ := List.mem_map.1 hf
  obtain ⟨hxc, hcb⟩ := (mem_children_iff hb).1 hc
  exact hleaves c hxc hcb

theorem reachable_merge_rootSplit :
    ∃ tree', (⟨[(rootFrag, 2)]⟩ : FragtreeT).merge (ofCell root)
        ((⟨[(rootFrag, 2)]⟩ : FragtreeT).view root) false = some tree' ∧ Reachable tree' ∧
      ∀ l, IsLeaf tree'.view l ↔
        (IsLeaf (⟨[(rootFrag, 2)]⟩ : FragtreeT).view l ∧ ¬ root.Above l ∨ l = root) :=
  reachable_merge reachable_rootSplit (by decide)
    (fun c _ hc => view_rootSplit fun he => by rw [he] at hc; exact absurd hc (by decide)) false

/-- On every fragtree of a run, `try_assimilate_children`, whatever frag it is given, keeps the
fragtree valid and changes no leaf and no value's frag. -/
theorem reachable_tryAssimilateChildren (h : Reachable tree) (x : FragT) :
    (tree.tryAssimilateChildren x).Valid ∧
      (∀ l, IsLeaf (tree.tryAssimilateChildren x).view l ↔ IsLeaf tree.view l) ∧
      ∀ v, (tree.tryAssimilateChildren x).get v = tree.get v := by
  obtain ⟨hval, hl⟩ := tryAssimilateChildren_spec h.valid x
  exact ⟨hval, hl, get_eq_of_isLeaf_iff h.valid hval hl⟩

theorem reachable_tryAssimilateChildren_rootSplit :
    (FragtreeT.tryAssimilateChildren ⟨[(rootFrag, 2)]⟩ rootFrag).Valid ∧
      (∀ l, IsLeaf (FragtreeT.tryAssimilateChildren ⟨[(rootFrag, 2)]⟩ rootFrag).view l ↔
        IsLeaf (⟨[(rootFrag, 2)]⟩ : FragtreeT).view l) ∧
      ∀ v, (FragtreeT.tryAssimilateChildren ⟨[(rootFrag, 2)]⟩ rootFrag).get v =
        (⟨[(rootFrag, 2)]⟩ : FragtreeT).get v :=
  reachable_tryAssimilateChildren reachable_rootSplit rootFrag

/-- On every fragtree of a run, `force_to_leaf(x)` goes through and makes `x` a leaf. It reports a
change exactly when `x` was not a leaf, and otherwise leaves the fragtree as it was. The leaves
apart from `x` stay, every other new leaf is apart from `x` and is a leaf of before or lies in
the leaf that held `x`, and the fragtree it gives is one of a run. -/
theorem reachable_forceToLeaf (h : Reachable tree) (x : Cell 24) :
    ∃ changed tree', tree.forceToLeaf (ofCell x) = some (changed, tree') ∧ Reachable tree' ∧
      (changed = true ↔ ¬ IsLeaf tree.view x) ∧ (changed = false → tree' = tree) ∧
      LeafAt tree.view tree'.view x := by
  obtain ⟨changed, tree', hf, -, hc, hsame, hl⟩ := forceToLeaf_spec h.valid x
  exact ⟨changed, tree', hf, h.step (.forceToLeaf (canonical_ofCell x) hf), hc, hsame, hl⟩

theorem reachable_forceToLeaf_rootSplit :
    ∃ changed tree', (⟨[(rootFrag, 2)]⟩ : FragtreeT).forceToLeaf
        (ofCell ⟨1, 1, by decide, by decide⟩) = some (changed, tree') ∧ Reachable tree' ∧
      (changed = true ↔ ¬ IsLeaf (⟨[(rootFrag, 2)]⟩ : FragtreeT).view ⟨1, 1, by decide, by decide⟩) ∧
      (changed = false → tree' = ⟨[(rootFrag, 2)]⟩) ∧
      LeafAt (⟨[(rootFrag, 2)]⟩ : FragtreeT).view tree'.view ⟨1, 1, by decide, by decide⟩ :=
  reachable_forceToLeaf reachable_rootSplit _

/-- On every fragtree of a run, the fragtree update of `adjust_dir_fragments` for a split within
the 24 bits goes through: the leaves under `basefrag` become the frags of its split, the leaves
elsewhere change only where `basefrag` is, and the fragtree it gives is one of a run. -/
theorem reachable_adjustDirFragments (h : Reachable tree) (x : Cell 24) (bits : ℤ)
    (hb : x.bits + bits.toNat ≤ 24) :
    ∃ tree', tree.adjustDirFragments (ofCell x) bits = some tree' ∧ Reachable tree' ∧
      SplitsTo tree.view tree'.view x bits.toNat := by
  obtain ⟨tree', ha, -, hs⟩ := adjustDirFragments_spec h.valid x bits hb
  exact ⟨tree', ha, h.step (.adjustDirFragments (canonical_ofCell x)
    (by rw [bits_ofCell]; exact hb) ha), hs⟩

theorem reachable_adjustDirFragments_rootSplit :
    ∃ tree', (⟨[(rootFrag, 2)]⟩ : FragtreeT).adjustDirFragments
        (ofCell ⟨1, 1, by decide, by decide⟩) 3 = some tree' ∧ Reachable tree' ∧
      SplitsTo (⟨[(rootFrag, 2)]⟩ : FragtreeT).view tree'.view ⟨1, 1, by decide, by decide⟩
        (3 : ℤ).toNat :=
  reachable_adjustDirFragments reachable_rootSplit _ 3 (by decide)

/-- On every fragtree of a run, forcing frags that are apart to leaves one after another, as
`get_force_dirfrag_bound_set` and `decode_lock_state` do, goes through and leaves all of them
leaves; the leaves apart from all of them stay. -/
theorem reachable_forceToLeaves (h : Reachable tree) (xs : List (Cell 24))
    (hxs : xs.Pairwise Apart) :
    ∃ tree', (xs.map ofCell).foldlM (fun tree f => Prod.snd <$> tree.forceToLeaf f) tree =
        some tree' ∧ tree'.Valid ∧ (∀ x ∈ xs, IsLeaf tree'.view x) ∧
      ∀ l, IsLeaf tree.view l → (∀ x ∈ xs, Apart l x) → IsLeaf tree'.view l :=
  foldlM_forceToLeaf_spec xs tree h.valid hxs

theorem reachable_forceToLeaves_clear :
    ∃ tree', ([⟨1, 0, by decide, by decide⟩, ⟨2, 3, by decide, by decide⟩].map ofCell).foldlM
        (fun tree f => Prod.snd <$> tree.forceToLeaf f) (FragtreeT.clear ⟨[]⟩) = some tree' ∧
      tree'.Valid ∧ (∀ x ∈ [(⟨1, 0, by decide, by decide⟩ : Cell 24), ⟨2, 3, by decide, by decide⟩],
        IsLeaf tree'.view x) ∧
      ∀ l, IsLeaf (FragtreeT.clear ⟨[]⟩).view l →
        (∀ x ∈ [(⟨1, 0, by decide, by decide⟩ : Cell 24), ⟨2, 3, by decide, by decide⟩], Apart l x) →
        IsLeaf tree'.view l :=
  reachable_forceToLeaves (.clear ⟨[]⟩) _ (List.pairwise_pair.2 ⟨fun h => by
    have := h.2
    exact absurd this (by decide), fun h => absurd h.1 (by decide)⟩)

end FragtreeT

end Lunule.Frag
