import Lunule.Frag.Cells
import Lunule.Frag.Tree
import Lunule.BitPrefix.Search

/-!
`fragtree_t` over canonical frags is a split tree of the 24-bit prefix cells: `getSplit` read at
the frag of each cell is its split function. On a valid map, one sorted by frag whose keys are
canonical frags split by at least one bit and that is a tree, `operator[]` returns the one leaf
that holds the value, the queries find exactly the leaves they name, and `split` of a leaf keeps
the map valid, with or without its simplification.
-/

namespace Lunule.Frag

open BitPrefix BitPrefix.Cell

/-! ## Frag operations on cells -/

theorem rootFrag_eq : rootFrag = ofCell root := by
  apply FragT.ext
  apply UInt32.toNat_inj.mp
  rw [toNat_enc_ofCell]
  rfl

theorem ofCell_eq_rootFrag_iff (c : Cell 24) : ofCell c = rootFrag ↔ c = root := by
  rw [rootFrag_eq]
  exact ofCell_injective.eq_iff

/-- The bits of the frag of a cell and `nb` more, within the 24, added as words. -/
theorem toNat_bits_add_ofCell (c : Cell 24) {nb : ℕ} (h : c.bits + nb ≤ 24) :
    ((ofCell c).bits + nb.toUInt32).toNat = c.bits + nb := by
  have hnb : nb.toUInt32.toNat = nb := by
    rw [Nat.toUInt32, UInt32.toNat_ofNat']
    exact Nat.mod_eq_of_lt (by omega)
  rw [UInt32.toNat_add, bits_ofCell, hnb]
  exact Nat.mod_eq_of_lt (by omega)

/-- `make_child(i, nb)` of the frag of a cell is the frag of the cell `i` under it. -/
theorem makeChild_ofCell (c : Cell 24) {nb i : ℕ} (h : c.bits + nb ≤ 24) (hi : i < 2 ^ nb) :
    (ofCell c).makeChild i nb = ofCell (c.extend nb i h hi) := by
  have hi' : i < 2 ^ 24 := lt_of_lt_of_le hi (Nat.pow_le_pow_right (by decide) (by omega))
  have hiu : i.toUInt32.toNat = i := by
    rw [Nat.toUInt32, UInt32.toNat_ofNat']
    exact Nat.mod_eq_of_lt (by omega)
  have hbits : (cephFragBits (ofCell c).enc + nb.toUInt32).toNat = c.bits + nb :=
    toNat_bits_add_ofCell c h
  have hsub : (24 - (cephFragBits (ofCell c).enc + nb.toUInt32)).toNat = 24 - (c.bits + nb) := by
    rw [UInt32.toNat_sub_of_le _ _ (by rw [UInt32.le_iff_toNat_le, hbits]; exact h), hbits]
    rfl
  have hshift : (i.toUInt32 <<< (24 - (cephFragBits (ofCell c).enc + nb.toUInt32))).toNat =
      i * 2 ^ (24 - (c.bits + nb)) := by
    rw [UInt32.toNat_shiftLeft, hsub, hiu, Nat.mod_eq_of_lt (by omega : 24 - (c.bits + nb) < 32),
      Nat.shiftLeft_eq]
    refine Nat.mod_eq_of_lt (lt_of_lt_of_le (Nat.mul_lt_mul_of_pos_right hi (Nat.two_pow_pos _)) ?_)
    rw [← Nat.pow_add]
    exact Nat.pow_le_pow_right (by decide) (by omega)
  have hvalue : ((ofCell c).value ||| i.toUInt32 <<< (24 - (cephFragBits (ofCell c).enc +
      nb.toUInt32))).toNat = (c.pre * 2 ^ nb + i) * 2 ^ (24 - (c.bits + nb)) := by
    have hpow : 2 ^ (24 - c.bits) = 2 ^ nb * 2 ^ (24 - (c.bits + nb)) := by
      rw [← Nat.pow_add]
      congr 1
      omega
    have hor := Nat.shiftLeft_or_distrib (a := c.pre * 2 ^ nb) (b := i) (i := 24 - (c.bits + nb))
    simp only [Nat.shiftLeft_eq] at hor
    rw [UInt32.toNat_or, value_ofCell, hshift, hpow, ← Nat.mul_assoc, ← hor, mul_two_pow_or hi]
  exact make_eq_ofCell_of hbits hvalue

/-- `split(nb)` of the frag of a cell lists the frags of the cells of its split, by index. -/
theorem split_ofCell (c : Cell 24) {nb : ℕ} (h : c.bits + nb ≤ 24) :
    (ofCell c).split nb = (c.children nb h).map ofCell := by
  refine List.ext_getElem (by simp [FragT.split, children]) fun i hi _ => ?_
  simp only [FragT.split, children, List.map_map, List.getElem_map, List.getElem_range,
    List.getElem_finRange, Function.comp_apply, Fin.val_cast]
  exact makeChild_ofCell c h _

theorem bits_le_ofCell_iff (c d : Cell 24) : (ofCell c).bits ≤ (ofCell d).bits ↔ c.bits ≤ d.bits := by
  rw [UInt32.le_iff_toNat_le, bits_ofCell, bits_ofCell]

theorem bits_lt_ofCell_iff (c d : Cell 24) : (ofCell c).bits < (ofCell d).bits ↔ c.bits < d.bits := by
  rw [UInt32.lt_iff_toNat_lt, bits_ofCell, bits_ofCell]

theorem bits_ofCell_ne_zero {c : Cell 24} (h : c ≠ root) : (ofCell c).bits ≠ 0 := fun h0 => by
  have hb := bits_ofCell c
  rw [h0, UInt32.toNat_zero] at hb
  exact h (eq_root_of_bits_eq_zero hb.symm)

/-- `contains(frag_t)` between the frags of two cells: the first cell is above the second. -/
theorem containsFrag_ofCell (c d : Cell 24) :
    (ofCell c).containsFrag (ofCell d) = true ↔ c.Above d := by
  have hval : (ofCell d).value.toNat % 2 ^ 24 = d.pre * 2 ^ (24 - d.bits) := by
    rw [value_ofCell]
    exact Nat.mod_eq_of_lt d.pre_mul_lt
  have hcont : (cephFragValue (ofCell d).enc &&& cephFragMask (ofCell c).enc ==
      cephFragValue (ofCell c).enc) = true ↔ c.Mem (d.pre * 2 ^ (24 - d.bits)) := by
    rw [← hval, ← contains_ofCell]
    rfl
  simp only [FragT.containsFrag, cephFragContainsFrag, Bool.and_eq_true, decide_eq_true_eq, hcont]
  rw [show cephFragBits (ofCell c).enc = (ofCell c).bits from rfl,
    show cephFragBits (ofCell d).enc = (ofCell d).bits from rfl, UInt32.le_iff_toNat_le,
    bits_ofCell, bits_ofCell]
  constructor
  · rintro ⟨hb, hm⟩
    exact above_of_mem hm (mem_base d) hb
  · intro h
    exact ⟨h.1, h.mem (mem_base d)⟩

/-- The skip test of the queue loops: a frag as specific as `x` and not in it. -/
theorem skip_ofCell_iff (x t : Cell 24) :
    ((ofCell x).bits ≤ (ofCell t).bits ∧ (ofCell x).containsFrag (ofCell t) = false) ↔
      (x.bits ≤ t.bits ∧ ¬ x.Above t) := by
  rw [bits_le_ofCell_iff, Bool.eq_false_iff, ne_eq, containsFrag_ofCell]

/-! ## The split function of a fragtree -/

namespace FragtreeT

theorem getSplit_setSplit (tree : FragtreeT) (x y : FragT) (b : ℕ) :
    (tree.setSplit x b).getSplit y = if y = x then b else tree.getSplit y := by
  unfold getSplit setSplit
  rw [OrdMap.find?_set]
  split_ifs <;> rfl

theorem getSplit_eraseSplit {tree : FragtreeT} (hs : OrdMap.Sorted tree.splits) (x y : FragT) :
    (tree.eraseSplit x).getSplit y = if y = x then 0 else tree.getSplit y := by
  unfold getSplit eraseSplit
  rw [@OrdMap.find?_erase FragT ℕ fragKeyEq _ hs.nodup]
  split_ifs <;> rfl

/-- The split of each cell: the split of its frag. -/
def view (tree : FragtreeT) : Cell 24 → ℕ := fun c => tree.getSplit (ofCell c)

/-- A fragtree whose map is sorted and whose keys are canonical frags split by at least one
bit. -/
structure Keyed (tree : FragtreeT) : Prop where
  sorted : OrdMap.Sorted tree.splits
  canonical : ∀ p ∈ tree.splits, p.1.Canonical
  pos : ∀ p ∈ tree.splits, 0 < p.2

/-- A keyed fragtree whose split cells form a tree. -/
structure Valid (tree : FragtreeT) : Prop extends tree.Keyed where
  isTree : IsTree tree.view

/-- A frag is a leaf of the fragtree: the frag of a leaf cell. -/
def IsLeafFrag (tree : FragtreeT) (f : FragT) : Prop := ∃ c, f = ofCell c ∧ IsLeaf tree.view c

theorem getSplit_ofCell (tree : FragtreeT) (c : Cell 24) : tree.getSplit (ofCell c) = tree.view c :=
  rfl

theorem isLeafFrag_ofCell_iff (tree : FragtreeT) (c : Cell 24) :
    tree.IsLeafFrag (ofCell c) ↔ IsLeaf tree.view c := by
  constructor
  · rintro ⟨d, hd, hl⟩
    rwa [ofCell_injective hd]
  · exact fun h => ⟨c, rfl, h⟩

/-! ## `operator[]` -/

variable {tree : FragtreeT}

/-- The loop of `operator[]` picks, of the cells of a split, the one that holds the value. -/
theorem find?_makeChild_contains (c : Cell 24) {nb : ℕ} (h : c.bits + nb ≤ 24) {v : UInt32}
    (hv : c.Mem (v.toNat % 2 ^ 24)) :
    (List.range (2 ^ nb)).find? (fun i => ((ofCell c).makeChild i nb).contains v) =
      some (c.index nb (v.toNat % 2 ^ 24)) := by
  have hcont : ∀ i (hi : i < 2 ^ nb),
      ((ofCell c).makeChild i nb).contains v = true ↔ c.index nb (v.toNat % 2 ^ 24) = i := by
    intro i hi
    rw [makeChild_ofCell c h hi, contains_ofCell, mem_extend_iff]
    exact and_iff_right hv
  have hlt := c.index_lt nb (v.toNat % 2 ^ 24)
  rw [List.find?_range_eq_some]
  refine ⟨(hcont _ hlt).2 rfl, List.mem_range.2 hlt, fun j hj => ?_⟩
  have hne : ((ofCell c).makeChild j nb).contains v ≠ true := fun h' =>
    absurd ((hcont j (lt_trans hj hlt)).1 h') (Nat.ne_of_gt hj)
  simpa using hne

/-- From the frag of a cell that holds the value, the loop of `operator[]` ends where the walk
of the value does, given a step of fuel for each bit left. The induction is on the walk. -/
theorem getLoop_of_walk {v : UInt32} {c l : Cell 24}
    (hw : Walk tree.view (v.toNat % 2 ^ 24) c l) (hv : c.Mem (v.toNat % 2 ^ 24)) {fuel : ℕ}
    (hfuel : 24 - c.bits ≤ fuel) : tree.getLoop v fuel (ofCell c) = some (ofCell l) := by
  induction hw generalizing fuel with
  | @stop c h0 =>
    rw [getLoop, if_neg (by rw [(contains_ofCell c v).2 hv]; decide), getSplit_ofCell, if_pos h0]
  | @step c l h hpos _ ih =>
    obtain ⟨f, rfl⟩ : ∃ f, fuel = f + 1 := ⟨fuel - 1, by omega⟩
    have hnext : tree.getLoop v f (ofCell (ofWord (c.bits + tree.view c) h (v.toNat % 2 ^ 24))) =
        some (ofCell l) :=
      ih (mem_ofWord_of_lt _ h (lt_of_mem hv)) (by simp only [bits_ofWord]; omega)
    rw [getLoop, if_neg (by rw [(contains_ofCell c v).2 hv]; decide), getSplit_ofCell,
      if_neg (Nat.pos_iff_ne_zero.1 hpos), find?_makeChild_contains c h hv]
    dsimp only
    rw [makeChild_ofCell c h (c.index_lt _ _), ← ofWord_eq_extend h hv]
    exact hnext

/-- `operator[]` on a valid fragtree returns the leaf frag that holds the value, and only it. -/
theorem get_eq_some_iff (ht : tree.Valid) (v : UInt32) (f : FragT) :
    tree.get v = some f ↔ tree.IsLeafFrag f ∧ f.contains v = true := by
  have hu : v.toNat % 2 ^ 24 < 2 ^ 24 := Nat.mod_lt _ (Nat.two_pow_pos _)
  obtain ⟨l, hl⟩ := ht.isTree.exists_walk 25 root (by simp [root]) (mem_root.2 hu)
  obtain ⟨hleaf, hlv⟩ := (walk_root_iff hu).1 hl
  have hget : tree.get v = some (ofCell l) := by
    rw [get, rootFrag_eq]
    exact getLoop_of_walk hl (mem_root.2 hu) (Nat.sub_le _ _)
  rw [hget]
  constructor
  · rintro ⟨⟩
    exact ⟨⟨l, rfl, hleaf⟩, (contains_ofCell l v).2 hlv⟩
  · rintro ⟨⟨c, rfl, hc⟩, hcv⟩
    rw [hc.eq hleaf ((contains_ofCell c v).1 hcv) hlv]

/-- `operator[]` on a valid fragtree returns a leaf frag that holds the value, the only one. -/
theorem get_spec (ht : tree.Valid) (v : UInt32) :
    ∃ f, tree.get v = some f ∧ tree.IsLeafFrag f ∧ f.contains v = true ∧
      ∀ g, tree.IsLeafFrag g → g.contains v = true → g = f := by
  have hu : v.toNat % 2 ^ 24 < 2 ^ 24 := Nat.mod_lt _ (Nat.two_pow_pos _)
  obtain ⟨l, ⟨hl, hlv⟩, huniq⟩ := ht.isTree.existsUnique_isLeaf hu
  have hf : tree.IsLeafFrag (ofCell l) ∧ (ofCell l).contains v = true :=
    ⟨⟨l, rfl, hl⟩, (contains_ofCell l v).2 hlv⟩
  refine ⟨ofCell l, (get_eq_some_iff ht v _).2 hf, hf.1, hf.2, ?_⟩
  rintro g ⟨c, rfl, hc⟩ hcv
  rw [huniq c ⟨hc, (contains_ofCell c v).1 hcv⟩]

/-- Two valid fragtrees with the same leaves send every value to the same frag. -/
theorem get_eq_of_isLeaf_iff {tree' : FragtreeT} (ht : tree.Valid) (ht' : tree'.Valid)
    (hl : ∀ l, IsLeaf tree'.view l ↔ IsLeaf tree.view l) (v : UInt32) :
    tree'.get v = tree.get v := by
  obtain ⟨f, hf, hfl, hfv, -⟩ := get_spec ht v
  obtain ⟨c, rfl, hc⟩ := hfl
  rw [hf, get_eq_some_iff ht' v]
  exact ⟨⟨c, rfl, (hl c).2 hc⟩, hfv⟩

/-! ## Climbing to a split -/

/-- The loop of `get_branch` climbs from the frag of a cell to a frag at or above it that is
split or the root. The induction is on the fuel, a step for each bit. -/
theorem getBranchLoop_root (tree : FragtreeT) (fuel : ℕ) :
    tree.getBranchLoop fuel (ofCell root) = some (ofCell root) := by
  cases fuel <;> rw [getBranchLoop, if_pos rootFrag_eq.symm]

theorem getBranchLoop_ofCell (fuel : ℕ) : ∀ c : Cell 24, c.bits ≤ fuel →
    ∃ b, tree.getBranchLoop fuel (ofCell c) = some (ofCell b) ∧ b.Above c ∧
      (b = root ∨ 0 < tree.view b) ∧ ∀ d, b.Above d → d.Above c → d ≠ b → tree.view d = 0 := by
  have hself : ∀ c : Cell 24, ∀ d, c.Above d → d.Above c → d ≠ c → tree.view d = 0 :=
    fun c d hcd hdc hne => absurd (hdc.antisymm hcd) hne
  induction fuel with
  | zero =>
    intro c hc
    obtain rfl := eq_root_of_bits_eq_zero (Nat.le_zero.1 hc)
    exact ⟨root, getBranchLoop_root tree 0, Above.refl _, .inl rfl, hself root⟩
  | succ fuel ih =>
    intro c hc
    by_cases hr : c = root
    · subst hr
      exact ⟨root, getBranchLoop_root tree _, Above.refl _, .inl rfl, hself root⟩
    have hne : ofCell c ≠ rootFrag := fun h => hr ((ofCell_eq_rootFrag_iff c).1 h)
    have hpos : 0 < c.bits := Nat.pos_of_ne_zero fun h => hr (eq_root_of_bits_eq_zero h)
    by_cases hs : 0 < tree.view c
    · refine ⟨c, ?_, Above.refl _, .inr hs, hself c⟩
      rw [getBranchLoop, if_neg hne, getSplit_ofCell, if_pos (Nat.pos_iff_ne_zero.1 hs)]
    · obtain ⟨b, hb, hbc, hbr, hlow⟩ := ih c.parent (by simp only [bits_parent]; omega)
      refine ⟨b, ?_, (above_iff hpos).2 (.inr hbc), hbr, fun d hbd hdc hdb => ?_⟩
      · rw [getBranchLoop, if_neg hne, getSplit_ofCell, if_neg (by omega),
          if_neg (bits_ofCell_ne_zero hr), parent_ofCell c hpos]
        exact hb
      · rcases (above_iff hpos).1 hdc with rfl | hdp
        · omega
        · exact hlow d hbd hdp hdb

/-- `get_branch` of the frag of a cell: the first cell at or above it that is split, or the
root. -/
theorem getBranch_ofCell (tree : FragtreeT) (c : Cell 24) :
    ∃ b, tree.getBranch (ofCell c) = some (ofCell b) ∧ b.Above c ∧ (b = root ∨ 0 < tree.view b) ∧
      ∀ d, b.Above d → d.Above c → d ≠ b → tree.view d = 0 := by
  rw [getBranch, bits_ofCell]
  exact getBranchLoop_ofCell _ c le_rfl

theorem getBranchAboveLoop_root (tree : FragtreeT) (fuel : ℕ) :
    tree.getBranchAboveLoop fuel (ofCell root) = some (ofCell root) := by
  cases fuel <;> rw [getBranchAboveLoop, if_pos rootFrag_eq.symm]

/-- The loop of `get_branch_above` climbs from the frag of a cell to a frag above it that is
split or the root; only the root is its own. The induction is on the fuel. -/
theorem getBranchAboveLoop_ofCell (fuel : ℕ) : ∀ c : Cell 24, c.bits ≤ fuel →
    ∃ b, tree.getBranchAboveLoop fuel (ofCell c) = some (ofCell b) ∧ b.Above c ∧
      (b = root ∨ 0 < tree.view b) := by
  induction fuel with
  | zero =>
    intro c hc
    obtain rfl := eq_root_of_bits_eq_zero (Nat.le_zero.1 hc)
    exact ⟨root, getBranchAboveLoop_root tree 0, Above.refl _, .inl rfl⟩
  | succ fuel ih =>
    intro c hc
    by_cases hr : c = root
    · subst hr
      exact ⟨root, getBranchAboveLoop_root tree _, Above.refl _, .inl rfl⟩
    have hne : ofCell c ≠ rootFrag := fun h => hr ((ofCell_eq_rootFrag_iff c).1 h)
    have hpos : 0 < c.bits := Nat.pos_of_ne_zero fun h => hr (eq_root_of_bits_eq_zero h)
    have hpc : c.parent.Above c := (above_iff hpos).2 (.inr (Above.refl _))
    rw [getBranchAboveLoop, if_neg hne, if_neg (bits_ofCell_ne_zero hr), parent_ofCell c hpos,
      getSplit_ofCell]
    by_cases hs : 0 < tree.view c.parent
    · exact ⟨c.parent, by rw [if_pos (Nat.pos_iff_ne_zero.1 hs)], hpc, .inr hs⟩
    · obtain ⟨b, hb, hbc, hbr⟩ := ih c.parent (by simp only [bits_parent]; omega)
      exact ⟨b, by rw [if_neg (by omega)]; exact hb, hbc.trans hpc, hbr⟩

theorem getBranchAbove_ofCell (tree : FragtreeT) (c : Cell 24) :
    ∃ b, tree.getBranchAbove (ofCell c) = some (ofCell b) ∧ b.Above c ∧
      (b = root ∨ 0 < tree.view b) := by
  rw [getBranchAbove, bits_ofCell]
  exact getBranchAboveLoop_ofCell _ c le_rfl

/-- `get_branch_or_leaf` of the frag of a cell is the frag of a reached cell above it that is not
split or whose split lies below the cell: the branch, or the cell of its split on the way to the
cell. It reads only the splits above the cell, which must be reached. -/
theorem getBranchOrLeaf_ofCell (hb : ∀ c, 0 < tree.view c → c.bits + tree.view c ≤ 24)
    (c : Cell 24) (hup : ∀ d, d.Above c → 0 < tree.view d → Reach tree.view root d) :
    ∃ s, tree.getBranchOrLeaf (ofCell c) = some (ofCell s) ∧ Reach tree.view root s ∧
      s.Above c ∧ (0 < tree.view s → c.bits < s.bits + tree.view s) := by
  obtain ⟨b, hbr, hbc, hroot, hlow⟩ := tree.getBranch_ofCell c
  have hrb : Reach tree.view root b := hroot.elim (fun h => h ▸ .refl) (hup b hbc)
  simp only [getBranchOrLeaf, hbr, Option.bind_eq_bind, Option.bind_some, getSplit_ofCell,
    bits_ofCell]
  split_ifs with h
  · obtain ⟨hpos, hle⟩ := h
    have hbound := hb b hpos
    have hbits := toNat_bits_add_ofCell b hbound
    have hbs : b.Above (ofWord (b.bits + tree.view b) hbound (c.pre * 2 ^ (24 - c.bits))) :=
      ofWord_above (hbc.mem (mem_base c)) _ hbound (Nat.le_add_right _ _)
    have hsc : (ofWord (b.bits + tree.view b) hbound (c.pre * 2 ^ (24 - c.bits))).Above c :=
      above_of_mem (mem_ofWord_of_lt _ _ (lt_of_mem (mem_base c))) (mem_base c) hle
    have hs0 := hlow _ hbs hsc fun he => by
      have hbits' := congrArg Cell.bits he
      simp only [bits_ofWord] at hbits'
      omega
    refine ⟨_, ?_, hrb.step hbound hpos (hbc.mem (mem_base c)), hsc, fun h => by omega⟩
    rw [make_eq_ofCell _ _ (by rw [hbits]; exact hbound), value_ofCell, ofWord_congr _ hbound hbits]
  · exact ⟨b, rfl, hrb, hbc, fun hpos => by omega⟩

/-! ## The searches under a branch

The queue and stack loops are run on the frags of a list of cells; with fuel for the cells of
the tree under them, they return what the leaves under those cells give. -/

section Search

variable (hb : ∀ c, 0 < tree.view c → c.bits + tree.view c ≤ 24)
include hb

/-- The stack loop of `get_leaves_under_split` puts in front of its list the leaves under the
cells of its stack, from the bottom of the stack up. The induction is on the fuel. -/
theorem getLeavesUnderSplitLoop_eq (fuel : ℕ) : ∀ (q : List (Cell 24)) (ls : List FragT),
    (q.map (sizeUnder tree.view)).sum ≤ fuel →
    tree.getLeavesUnderSplitLoop fuel (q.map ofCell) ls =
      some ((q.reverse.flatMap (leavesUnder tree.view)).map ofCell ++ ls) := by
  induction fuel with
  | zero =>
    rintro (_ | ⟨t, q⟩) ls hfuel
    · rfl
    · have := one_le_sizeUnder (S := tree.view) t
      simp only [List.map_cons, List.sum_cons] at hfuel
      omega
  | succ fuel ih =>
    rintro (_ | ⟨t, q⟩) ls hfuel
    · rfl
    simp only [List.map_cons, List.sum_cons] at hfuel
    rw [List.map_cons, getLeavesUnderSplitLoop, getSplit_ofCell]
    by_cases hs : 0 < tree.view t
    · rw [if_pos (Nat.pos_iff_ne_zero.1 hs), split_ofCell t (hb t hs), ← List.map_reverse,
        ← List.map_append, ih _ ls (by
          rw [sizeUnder_of_pos hs (hb t hs)] at hfuel
          simp only [List.map_append, List.sum_append, List.map_reverse, List.sum_reverse]
          omega)]
      simp only [List.reverse_append, List.reverse_reverse, List.flatMap_append, List.reverse_cons,
        List.flatMap_cons, List.flatMap_nil, List.append_nil, leavesUnder_of_pos hs (hb t hs)]
    · have := one_le_sizeUnder (S := tree.view) t
      rw [if_neg (by omega), ih q _ (by omega)]
      simp [leavesUnder_of_eq_zero (by omega : tree.view t = 0)]

/-- `get_leaves` lists the leaves under the root, in the order of their prefixes. -/
theorem getLeaves_eq : tree.getLeaves = some ((leavesUnder tree.view root).map ofCell) := by
  have hsize : sizeUnder tree.view (root : Cell 24) < 2 ^ 25 := sizeUnder_lt root
  rw [getLeaves, getLeavesUnderSplit, rootFrag_eq, ← List.map_singleton,
    getLeavesUnderSplitLoop_eq hb _ [root] [] (by simpa using hsize.le)]
  simp

omit hb in
/-- A cell as specific as `x` and not in it has no leaf in `x`. -/
theorem filter_leavesUnder_eq_nil {x t : Cell 24} (h : x.bits ≤ t.bits ∧ ¬ x.Above t) :
    (leavesUnder tree.view t).filter (fun l => (ofCell x).containsFrag (ofCell l)) = [] := by
  rw [List.filter_eq_nil_iff]
  intro l hl hxl
  exact h.2 (above_of_above_of_bits_le ((containsFrag_ofCell x l).1 hxl)
    (above_of_mem_leavesUnder hl) h.1)

/-- The queue loop of `get_leaves_under(x)` adds to its list, in some order, the leaves in `x`
under the cells of its queue. The induction is on the fuel. -/
theorem getLeavesUnderLoop_perm (x : Cell 24) (fuel : ℕ) : ∀ (q : List (Cell 24)) (ls : List FragT),
    (q.map (sizeUnder tree.view)).sum ≤ fuel →
    ∃ r, tree.getLeavesUnderLoop (ofCell x) fuel (q.map ofCell) ls = some r ∧
      r.Perm (ls ++ ((q.flatMap (leavesUnder tree.view)).filter
        fun l => (ofCell x).containsFrag (ofCell l)).map ofCell) := by
  induction fuel with
  | zero =>
    rintro (_ | ⟨t, q⟩) ls hfuel
    · exact ⟨ls, rfl, by simp⟩
    · have := one_le_sizeUnder (S := tree.view) t
      simp only [List.map_cons, List.sum_cons] at hfuel
      omega
  | succ fuel ih =>
    rintro (_ | ⟨t, q⟩) ls hfuel
    · exact ⟨ls, rfl, by simp⟩
    simp only [List.map_cons, List.sum_cons] at hfuel
    have hone := one_le_sizeUnder (S := tree.view) t
    rw [List.map_cons, getLeavesUnderLoop, getSplit_ofCell, List.flatMap_cons, List.filter_append]
    by_cases hskip : x.bits ≤ t.bits ∧ ¬ x.Above t
    · rw [if_pos ((skip_ofCell_iff x t).2 hskip), filter_leavesUnder_eq_nil hskip, List.nil_append]
      exact ih q ls (by omega)
    rw [if_neg (mt (skip_ofCell_iff x t).1 hskip)]
    by_cases hs : 0 < tree.view t
    · rw [if_pos (Nat.pos_iff_ne_zero.1 hs), split_ofCell t (hb t hs), ← List.map_append]
      obtain ⟨r, hr, hperm⟩ := ih (q ++ t.children (tree.view t) (hb t hs)) ls (by
        rw [sizeUnder_of_pos hs (hb t hs)] at hfuel
        simp only [List.map_append, List.sum_append]
        omega)
      refine ⟨r, hr, hperm.trans ?_⟩
      rw [List.flatMap_append, List.filter_append, leavesUnder_of_pos hs (hb t hs)]
      exact ((List.perm_append_comm.map _).append_left ls)
    · rw [if_neg (by omega), leavesUnder_of_eq_zero (by omega : tree.view t = 0)]
      obtain ⟨r, hr, hperm⟩ := ih q _ (by omega)
      refine ⟨r, hr, hperm.trans ?_⟩
      by_cases hc : (ofCell x).containsFrag (ofCell t) = true <;> simp [hc]

/-- The queue loop of `contains(x)` finds `x` as a leaf reached from a cell of its queue. The
induction is on the fuel. -/
theorem containsLoop_iff (x : Cell 24) (fuel : ℕ) : ∀ q : List (Cell 24),
    (q.map (sizeUnder tree.view)).sum ≤ fuel →
    ∃ b, tree.containsLoop (ofCell x) fuel (q.map ofCell) = some b ∧
      (b = true ↔ ∃ t ∈ q, Reach tree.view t x ∧ tree.view x = 0) := by
  induction fuel with
  | zero =>
    rintro (_ | ⟨t, q⟩) hfuel
    · exact ⟨false, rfl, by simp⟩
    · have := one_le_sizeUnder (S := tree.view) t
      simp only [List.map_cons, List.sum_cons] at hfuel
      omega
  | succ fuel ih =>
    rintro (_ | ⟨t, q⟩) hfuel
    · exact ⟨false, rfl, by simp⟩
    simp only [List.map_cons, List.sum_cons] at hfuel
    have hone := one_le_sizeUnder (S := tree.view) t
    rw [List.map_cons, containsLoop, getSplit_ofCell]
    simp only [List.mem_cons, exists_eq_or_imp]
    by_cases hskip : x.bits ≤ t.bits ∧ ¬ x.Above t
    · rw [if_pos ((skip_ofCell_iff x t).2 hskip)]
      have hnt : ¬ (Reach tree.view t x ∧ tree.view x = 0) := fun ⟨hr, _⟩ =>
        hskip.2 (by rw [hr.above.eq_of_bits_le hskip.1]; exact Above.refl _)
      simpa only [hnt, false_or] using ih q (by omega)
    rw [if_neg (mt (skip_ofCell_iff x t).1 hskip)]
    by_cases hs : 0 < tree.view t
    · rw [if_pos (Nat.pos_iff_ne_zero.1 hs)]
      by_cases htx : t = x
      · subst htx
        refine ⟨false, if_pos rfl, ?_⟩
        simp only [Bool.false_eq_true, false_iff, not_or, not_exists, not_and]
        exact ⟨fun _ h0 => by omega, fun _ _ _ h0 => by omega⟩
      rw [if_neg (fun h => htx (ofCell_injective h)), split_ofCell t (hb t hs), ← List.map_append]
      obtain ⟨b, hb', hiff⟩ := ih (q ++ t.children (tree.view t) (hb t hs)) (by
        rw [sizeUnder_of_pos hs (hb t hs)] at hfuel
        simp only [List.map_append, List.sum_append]
        omega)
      refine ⟨b, hb', hiff.trans ?_⟩
      constructor
      · rintro ⟨d, hd, hdx, h0⟩
        rcases List.mem_append.1 hd with hd | hd
        · exact .inr ⟨d, hd, hdx, h0⟩
        · exact .inl ⟨(Reach.refl.child hs (hb t hs) hd).trans hdx, h0⟩
      · rintro (⟨htr, h0⟩ | ⟨d, hd, hdx, h0⟩)
        · rcases htr.head with rfl | ⟨_, d, hd, hdx⟩
          · exact absurd rfl htx
          · exact ⟨d, List.mem_append_right _ hd, hdx, h0⟩
        · exact ⟨d, List.mem_append_left _ hd, hdx, h0⟩
    · rw [if_neg (by omega)]
      by_cases htx : t = x
      · subst htx
        refine ⟨true, if_pos rfl, ?_⟩
        simp only [true_iff]
        exact Or.inl ⟨Reach.refl, by omega⟩
      rw [if_neg (fun h => htx (ofCell_injective h))]
      have hnt : ¬ (Reach tree.view t x ∧ tree.view x = 0) := fun ⟨hr, _⟩ => by
        rcases hr.eq_or_le with h | ⟨hpos, -⟩
        · exact htx h.symm
        · omega
      simpa only [hnt, false_or] using ih q (by omega)

end Search

/-! ## The queries on a valid fragtree -/

/-- The fuel of the searches covers the cells of the tree under any one cell. -/
theorem sum_sizeUnder_singleton_le (tree : FragtreeT) (c : Cell 24) :
    ([c].map (sizeUnder tree.view)).sum ≤ 2 ^ 25 := by
  have hlt := sizeUnder_lt (S := tree.view) c
  have h25 : 2 ^ (24 - c.bits + 1) ≤ 2 ^ 25 := Nat.pow_le_pow_right (by decide) (by omega)
  simp only [List.map_cons, List.map_nil, List.sum_cons, List.sum_nil]
  omega

/-- `is_leaf(x)` asks whether the leaves under `x` are `[x]`. -/
theorem isLeaf_eq_of_getLeavesUnder {x : FragT} {r : List FragT}
    (h : tree.getLeavesUnder x = some r) : tree.isLeaf x = some (decide (r = [x])) := by
  rw [isLeaf, h, Option.bind_eq_bind, Option.bind_some]
  congr 1
  match r with
  | [] => simp
  | [y] => by_cases hy : y = x <;> simp [hy]
  | _ :: _ :: _ => simp

/-! `force_to_leaf` asks `is_leaf` of maps that are not trees: what it needs is that the splits
stay in the 24 bits and that those above the frag asked are reached. -/

section Bound

variable (hb : ∀ c, 0 < tree.view c → c.bits + tree.view c ≤ 24)
include hb

/-- A split frag is not a leaf: the search starts at it, and it is not among the leaves. -/
theorem isLeaf_of_pos {c : Cell 24} (hpos : 0 < tree.view c) :
    tree.isLeaf (ofCell c) = some false := by
  obtain ⟨b, hbr, hbc, -, hlow⟩ := tree.getBranch_ofCell c
  have hbc' : b = c := by
    by_contra hne
    exact absurd (hlow c hbc (Above.refl c) (Ne.symm hne)) (by omega)
  subst hbc'
  have hstart : tree.getBranchOrLeaf (ofCell b) = some (ofCell b) := by
    simp only [getBranchOrLeaf, hbr, Option.bind_eq_bind, Option.bind_some, getSplit_ofCell,
      bits_ofCell]
    rw [if_neg (by omega)]
  obtain ⟨r, hr, hperm⟩ := getLeavesUnderLoop_perm hb b (2 ^ 25) [b] []
    (sum_sizeUnder_singleton_le tree b)
  rw [isLeaf_eq_of_getLeavesUnder (by
    rw [getLeavesUnder, hstart, Option.bind_eq_bind, Option.bind_some]; exact hr)]
  have hnot : ofCell b ∉ r := fun hm => by
    obtain ⟨l, hl, hlb⟩ := List.mem_map.1 (hperm.mem_iff.1 hm)
    obtain rfl := ofCell_injective hlb
    simp only [List.flatMap_cons, List.flatMap_nil, List.append_nil, List.mem_filter,
      mem_leavesUnder_iff hb] at hl
    omega
  rw [decide_eq_false]
  rintro rfl
  exact hnot List.mem_cons_self

/-- A reached frag that is not split is a leaf, when the splits above it are reached. -/
theorem isLeaf_of_reach {c : Cell 24}
    (hup : ∀ d, d.Above c → 0 < tree.view d → Reach tree.view root d)
    (hr : Reach tree.view root c) (h0 : tree.view c = 0) : tree.isLeaf (ofCell c) = some true := by
  obtain ⟨s, hs, hrs, hsc, hlt⟩ := getBranchOrLeaf_ofCell hb c hup
  have hsc' : s = c := by
    rcases (Reach.of_above hrs hr hsc).eq_or_le with he | ⟨hpos, hle⟩
    · exact he.symm
    · exact absurd (hlt hpos) (by omega)
  subst hsc'
  obtain ⟨r, hr', hperm⟩ := getLeavesUnderLoop_perm hb s (2 ^ 25) [s] []
    (sum_sizeUnder_singleton_le tree s)
  rw [isLeaf_eq_of_getLeavesUnder (by
    rw [getLeavesUnder, hs, Option.bind_eq_bind, Option.bind_some]; exact hr')]
  simp only [List.flatMap_cons, List.flatMap_nil, List.append_nil, List.nil_append,
    leavesUnder_of_eq_zero h0, List.filter_cons, (containsFrag_ofCell s s).2 (Above.refl s),
    if_true, List.filter_nil, List.map_cons, List.map_nil, List.perm_singleton] at hperm
  simp [hperm]

end Bound

/-- `get_leaves` on a valid fragtree lists its leaf frags, each once. -/
theorem getLeaves_spec (ht : tree.Valid) :
    ∃ r, tree.getLeaves = some r ∧ r.Nodup ∧ ∀ f, f ∈ r ↔ tree.IsLeafFrag f := by
  refine ⟨_, getLeaves_eq ht.isTree.bound, (nodup_leavesUnder root).map ofCell_injective,
    fun f => ?_⟩
  simp only [List.mem_map, ht.isTree.mem_leavesUnder_root_iff]
  constructor
  · rintro ⟨l, hl, rfl⟩
    exact ⟨l, rfl, hl⟩
  · rintro ⟨l, rfl, hl⟩
    exact ⟨l, hl, rfl⟩

/-- `get_leaves_under(x)` on a valid fragtree lists the leaf frags that `x` contains, each once. -/
theorem getLeavesUnder_spec (ht : tree.Valid) (x : Cell 24) :
    ∃ r, tree.getLeavesUnder (ofCell x) = some r ∧ r.Nodup ∧
      ∀ f, f ∈ r ↔ tree.IsLeafFrag f ∧ (ofCell x).containsFrag f = true := by
  obtain ⟨s, hs, hrs, hsx, -⟩ :=
    getBranchOrLeaf_ofCell ht.isTree.bound x fun d _ hd => ht.isTree.reach d hd
  obtain ⟨r, hr, hperm⟩ := getLeavesUnderLoop_perm ht.isTree.bound x (2 ^ 25) [s] []
    (sum_sizeUnder_singleton_le tree s)
  simp only [List.flatMap_cons, List.flatMap_nil, List.append_nil, List.nil_append] at hperm
  refine ⟨r, by rw [getLeavesUnder, hs, Option.bind_eq_bind, Option.bind_some]; exact hr,
    hperm.nodup_iff.2 (((nodup_leavesUnder s).filter _).map ofCell_injective), fun f => ?_⟩
  rw [hperm.mem_iff]
  simp only [List.mem_map, List.mem_filter, mem_leavesUnder_iff ht.isTree.bound]
  constructor
  · rintro ⟨l, ⟨⟨hsl, h0⟩, hxl⟩, rfl⟩
    exact ⟨⟨l, rfl, hrs.trans hsl, h0⟩, hxl⟩
  · rintro ⟨⟨l, rfl, hl⟩, hxl⟩
    exact ⟨l, ⟨⟨Reach.of_above hrs hl.1 (hsx.trans ((containsFrag_ofCell x l).1 hxl)), hl.2⟩, hxl⟩,
      rfl⟩

/-- `is_leaf(x)` on a valid fragtree tells whether the frag of a cell is a leaf. -/
theorem isLeaf_spec (ht : tree.Valid) (x : Cell 24) :
    ∃ b, tree.isLeaf (ofCell x) = some b ∧ (b = true ↔ IsLeaf tree.view x) := by
  obtain ⟨r, hr, hnd, hmem⟩ := getLeavesUnder_spec ht x
  refine ⟨_, by rw [isLeaf, hr]; rfl, ⟨fun h => ?_, fun hx => ?_⟩⟩
  · have hhead : r.head? = some (ofCell x) := by
      simp only [Bool.and_eq_true, beq_iff_eq] at h
      exact h.1.2
    obtain ⟨tl, rfl⟩ := List.head?_eq_some_iff.1 hhead
    exact (isLeafFrag_ofCell_iff tree x).1 ((hmem _).1 List.mem_cons_self).1
  · have hr1 : r = [ofCell x] := by
      refine ((List.perm_ext_iff_of_nodup hnd (List.nodup_singleton _)).2 fun f => ?_).eq_singleton
      rw [hmem, List.mem_singleton]
      constructor
      · rintro ⟨⟨l, rfl, hl⟩, hxl⟩
        rw [hx.eq_of_above hl.1 ((containsFrag_ofCell x l).1 hxl)]
      · rintro rfl
        exact ⟨⟨x, rfl, hx⟩, (containsFrag_ofCell x x).2 (Above.refl x)⟩
    subst hr1
    simp

/-- `contains(x)` on a valid fragtree tells whether the frag of a cell is a leaf. -/
theorem contains_spec (ht : tree.Valid) (x : Cell 24) :
    ∃ b, tree.contains (ofCell x) = some b ∧ (b = true ↔ IsLeaf tree.view x) := by
  obtain ⟨br, hbr, hbx, hbroot, -⟩ := tree.getBranch_ofCell x
  have hrb : Reach tree.view root br := ht.isTree.reach_of hbroot
  obtain ⟨b, hb, hiff⟩ := containsLoop_iff ht.isTree.bound x (2 ^ 25) [br]
    (sum_sizeUnder_singleton_le tree br)
  refine ⟨b, by rw [contains, hbr, Option.bind_eq_bind, Option.bind_some]; exact hb,
    hiff.trans ?_⟩
  simp only [List.mem_singleton, exists_eq_left]
  constructor
  · rintro ⟨h, h0⟩
    exact ⟨hrb.trans h, h0⟩
  · rintro ⟨hx, h0⟩
    exact ⟨Reach.of_above hrb hx hbx, h0⟩

end FragtreeT

end Lunule.Frag
