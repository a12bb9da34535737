import Lunule.BitPrefix.Prune
import Lunule.Frag.Modify

/-!
`force_to_leaf(x)` on a valid fragtree. A frag that is a leaf is left alone. Otherwise the frag
`get_branch_or_leaf` gives is a leaf above `x`, which is split down to the bits of `x`; or a
split frag whose split lies below `x`, into which an intermediate split down to the bits of `x`
is put before the hoover loop merges all under `x`; or `x` itself, split, under which the hoover
loop merges all. The fragtree stays valid, `x` becomes a leaf, and the leaves change only where
`x` is.

Between these steps the map is not a tree. The lemmas on `is_leaf`, `split` and `merge` used here
ask only that the splits stay within the 24 bits and that the split frags above the frag asked
are reached.
-/

namespace Lunule.Frag

open BitPrefix BitPrefix.Cell

namespace FragtreeT

variable {tree : FragtreeT}

/-! ## The hoover loop -/

/-- The hoover loop over a queue of apart cells, with fuel for the cells under them, erases the
split of every cell the queue reaches and keeps the others. The induction is on the fuel; each
turn takes one cell of the tree off the measure, the cells under the queue. -/
theorem hooverLoop_spec (fuel : ℕ) : ∀ (tree : FragtreeT) (q : List (Cell 24)),
    OrdMap.Sorted tree.splits → (∀ c, 0 < tree.view c → c.bits + tree.view c ≤ 24) →
    q.Pairwise Apart → (q.map (sizeUnder tree.view)).sum ≤ fuel →
    ∃ tree', tree.hooverLoop fuel (q.map ofCell) = some tree' ∧
      tree'.splits.Sublist tree.splits ∧ PrunesFrom tree.view tree'.view q := by
  induction fuel with
  | zero =>
    rintro tree (_ | ⟨t, q⟩) - - - hfuel
    · exact ⟨tree, rfl, List.Sublist.refl _, prunesFrom_nil _⟩
    · have := one_le_sizeUnder (S := tree.view) t
      simp only [List.map_cons, List.sum_cons] at hfuel
      omega
  | succ fuel ih =>
    rintro tree (_ | ⟨t, q⟩) hs hb hq hfuel
    · exact ⟨tree, rfl, List.Sublist.refl _, prunesFrom_nil _⟩
    obtain ⟨htq, hq⟩ := List.pairwise_cons.1 hq
    simp only [List.map_cons, List.sum_cons] at hfuel
    rcases Nat.eq_zero_or_pos (tree.view t) with h0 | hpos
    · rw [sizeUnder_of_eq_zero h0] at hfuel
      obtain ⟨tree', hl, hsub, hpr⟩ := ih tree q hs hb hq (by omega)
      refine ⟨tree', ?_, hsub, hpr.cons_of_eq_zero h0⟩
      rw [List.map_cons, hooverLoop, getSplit_ofCell, if_neg (by omega)]
      exact hl
    · have hbt := hb t hpos
      have hsplit := splitAt_eraseSplit hs t
      have hq₁ : (q ++ t.children (tree.view t) hbt).Pairwise Apart :=
        List.pairwise_append.2 ⟨hq, pairwise_apart_children hbt, fun u hu d hd =>
          ((htq u hu).of_above ((mem_children_iff hbt).1 hd).1).symm⟩
      have hsum := hsplit.sum_sizeUnder_append hpos hbt htq
      rw [List.map_cons, List.sum_cons] at hsum
      obtain ⟨tree', hl, hsub, hpr⟩ := ih (tree.eraseSplit (ofCell t))
        (q ++ t.children (tree.view t) hbt) (hs.erase _) (hsplit.bound hb (by omega)) hq₁ (by omega)
      refine ⟨tree', ?_, hsub.trans (@OrdMap.erase_sublist FragT ℕ fragKeyEq _ _),
        hpr.cons_of_pos hsplit hpos hbt htq⟩
      rw [List.map_cons, hooverLoop, getSplit_ofCell, if_pos (by omega), merge_eq_eraseSplit hb hpos,
        Option.bind_eq_bind, Option.bind_some, split_ofCell t hbt, ← List.map_append]
      exact hl

/-- `hoover` at a reached frag of a keyed fragtree whose splits form a tree merges all under the
frag: the fragtree it returns is valid, and its leaves are the frag and the leaves not under
it. -/
theorem hoover_spec (hk : tree.Keyed) (hT : IsTree tree.view) {x : Cell 24}
    (hx : Reach tree.view root x) :
    ∃ tree', tree.hoover (ofCell x) = some (true, tree') ∧ tree'.Valid ∧
      ∀ l, IsLeaf tree'.view l ↔ IsLeaf tree.view l ∧ ¬ x.Above l ∨ l = x := by
  obtain ⟨tree', hl, hsub, hpr⟩ := hooverLoop_spec (2 ^ 25) tree [x] hk.sorted hT.bound
    (List.pairwise_singleton _ x) (sum_sizeUnder_singleton_le tree x)
  have hc := hpr.collapsesAt hT hx
  have ht' : tree'.Valid := ⟨hk.of_sublist hsub, hT.collapseAt hc⟩
  have hleaf : ∀ l, IsLeaf tree'.view l ↔ IsLeaf tree.view l ∧ ¬ x.Above l ∨ l = x :=
    fun l => isLeaf_collapseAt_iff hc hx
  obtain ⟨b, hb, hiff⟩ := isLeaf_spec ht' x
  obtain rfl : b = true := hiff.2 ((hleaf x).2 (.inr rfl))
  refine ⟨tree', ?_, ht', hleaf⟩
  rw [List.map_singleton] at hl
  rw [hoover, hl, Option.bind_eq_bind, Option.bind_some, hb]
  rfl

/-! ## The intermediate split -/

/-- Splitting frags of one bit count one after another without simplifying assigns their splits,
when each is reached, is not split, and lies under split frags that are reached. The induction
is on the frags left: a split at one of them changes nothing above the others. -/
theorem foldlM_split_eq {k n : ℕ} (hn : n + k ≤ 24) : ∀ (ps : List (Cell 24)) (tree : FragtreeT),
    ps.Nodup → (∀ p ∈ ps, p.bits = n) → (∀ c, 0 < tree.view c → c.bits + tree.view c ≤ 24) →
    (∀ p ∈ ps, tree.view p = 0 ∧ Reach tree.view root p ∧
      ∀ d, d.Above p → 0 < tree.view d → Reach tree.view root d) →
    (ps.map ofCell).foldlM (fun tree p => tree.split p k false) tree =
      some ((ps.map ofCell).foldl (fun tree p => tree.setSplit p k) tree)
  | [], _, _, _, _, _ => rfl
  | p :: ps, tree, hnd, hbits, hb, hps => by
    obtain ⟨hp, hnd⟩ := List.nodup_cons.1 hnd
    obtain ⟨h0, hr, hup⟩ := hps p List.mem_cons_self
    have hs := splitAt_setSplit tree p k
    have hnot : ∀ p' ∈ ps, ∀ d, d.Above p' → ¬ p.Above d := fun p' hp' d hdp hpd =>
      (apart_of_bits_eq (fun he => hp (by rw [he]; exact hp'))
        ((hbits p List.mem_cons_self).trans (hbits p' (List.mem_cons_of_mem p hp')).symm)).1
        (hpd.trans hdp)
    have hne : ∀ p' ∈ ps, ∀ d, d.Above p' → d ≠ p := fun p' hp' d hdp hdp' =>
      hnot p' hp' d hdp (hdp' ▸ Above.refl d)
    rw [List.map_cons, List.foldlM_cons, split_eq_setSplit hb hup hr h0, Option.bind_eq_bind,
      Option.bind_some, List.foldl_cons]
    refine foldlM_split_eq hn ps _ hnd (fun p' hp' => hbits p' (List.mem_cons_of_mem p hp'))
      (hs.bound hb (by rw [hbits p List.mem_cons_self]; exact hn)) fun p' hp' => ?_
    obtain ⟨h0', hr', hup'⟩ := hps p' (List.mem_cons_of_mem p hp')
    refine ⟨by rw [hs.other p' (hne p' hp' p' (Above.refl p')), h0'],
      Reach.of_splitAt_not_above hs.swap hr' (hnot p' hp' p' (Above.refl p')), fun d hdp hd => ?_⟩
    rw [hs.other d (hne p' hp' d hdp)] at hd
    exact Reach.of_splitAt_not_above hs.swap (hup' d hdp hd) (hnot p' hp' d hdp)

section Interpose

variable (ht : tree.Valid) {s : Cell 24} (hs : Reach tree.view root s)
include ht hs

/-- Splitting `s` again after its merge, without simplifying, assigns its new split. -/
theorem split_eraseSplit_eq (b : ℕ) :
    (tree.eraseSplit (ofCell s)).split (ofCell s) b false =
      some ((tree.eraseSplit (ofCell s)).setSplit (ofCell s) b) := by
  have h₁ := splitAt_eraseSplit ht.sorted s
  refine split_eq_setSplit (h₁.bound ht.isTree.bound (by have := s.bits_le; omega))
    (fun d hds hd => ?_) (hs.transfer fun d _ _ hne => h₁.other d hne) h₁.self b
  have hne : d ≠ s := fun he => by
    rw [he, h₁.self] at hd
    omega
  rw [h₁.other d hne] at hd
  exact Reach.of_splitAt_not_above h₁.swap (ht.isTree.reach d hd) fun hsd =>
    hne (hds.antisymm hsd)

variable {spread : ℕ} (h0 : 0 < spread) (hlt : spread < tree.view s)
include h0 hlt

/-- The frags of the split of `s` by `spread` bits are then split by the rest, one after another:
each lies strictly between `s` and its old split, so it is not split and nothing above it but `s`
is. -/
theorem foldlM_interpose_eq :
    ((ofCell s).split spread).foldlM (fun t p => t.split p (tree.view s - spread) false)
      ((tree.eraseSplit (ofCell s)).setSplit (ofCell s) spread) =
    some (((ofCell s).split spread).foldl (fun t p => t.setSplit p (tree.view s - spread))
      ((tree.eraseSplit (ofCell s)).setSplit (ofCell s) spread)) := by
  have hb := ht.isTree.bound s (by omega)
  have hsp : s.bits + spread ≤ 24 := by omega
  have h₂ := (splitAt_eraseSplit ht.sorted s).trans (splitAt_setSplit _ s spread)
  have hr₂ : Reach ((tree.eraseSplit (ofCell s)).setSplit (ofCell s) spread).view root s :=
    hs.transfer fun d _ _ hne => h₂.other d hne
  rw [split_ofCell s hsp]
  refine foldlM_split_eq (n := s.bits + spread) (by omega) _ _ (nodup_children hsp)
    (fun p hp => ((mem_children_iff hsp).1 hp).2) (h₂.bound ht.isTree.bound hsp) fun p hp => ?_
  obtain ⟨hsp', hpb⟩ := (mem_children_iff hsp).1 hp
  have hps : p ≠ s := fun he => by
    rw [he] at hpb
    omega
  refine ⟨?_, hr₂.step_above (by rw [h₂.self]; exact h0) hsp' (by rw [h₂.self]; exact hpb),
    fun d hdp hd => ?_⟩
  · rw [h₂.other p hps]
    exact ht.isTree.eq_zero_of_between hs hsp' (by omega) (by omega)
  · by_cases hsd : s.Above d
    · rcases eq_or_ne d s with rfl | hds
      · exact hr₂
      · have hlt' : s.bits < d.bits := lt_of_le_of_ne hsd.1 fun he => hds (hsd.eq_of_bits_le he.ge).symm
        have hle := hdp.1
        rw [h₂.other d hds, ht.isTree.eq_zero_of_between hs hsd hlt' (by omega)] at hd
        exact absurd hd (lt_irrefl 0)
    · rw [h₂.other d fun he => hsd (he ▸ Above.refl s)] at hd
      exact Reach.of_splitAt_not_above h₂.swap (ht.isTree.reach d hd) hsd

omit hs in
/-- After the intermediate split, `s` is split by `spread` bits and the frags of that split by
the rest. -/
theorem interposesAt_foldl_setSplit :
    InterposesAt tree.view (((ofCell s).split spread).foldl
      (fun t p => t.setSplit p (tree.view s - spread))
      ((tree.eraseSplit (ofCell s)).setSplit (ofCell s) spread)).view s spread := by
  have hsp : s.bits + spread ≤ 24 := by
    have := ht.isTree.bound s (by omega)
    omega
  have h₂ := (splitAt_eraseSplit ht.sorted s).trans (splitAt_setSplit _ s spread)
  have hmem : ∀ c, ofCell c ∈ (ofCell s).split spread ↔ s.Above c ∧ c.bits = s.bits + spread :=
    fun c => by
      rw [split_ofCell s hsp]
      exact (List.mem_map_of_injective ofCell_injective).trans (mem_children_iff hsp)
  have hv : ∀ c, (((ofCell s).split spread).foldl (fun t p => t.setSplit p (tree.view s - spread))
      ((tree.eraseSplit (ofCell s)).setSplit (ofCell s) spread)).view c =
      if ofCell c ∈ (ofCell s).split spread then tree.view s - spread
      else ((tree.eraseSplit (ofCell s)).setSplit (ofCell s) spread).view c :=
    fun c => getSplit_foldl_setSplit _ _ _ _
  refine ⟨?_, fun c hsc hc => ?_, fun c hcs hnc => ?_⟩
  · rw [hv, if_neg fun h => by have := ((hmem s).1 h).2; omega, h₂.self]
  · rw [hv, if_pos ((hmem c).2 ⟨hsc, hc⟩)]
  · rw [hv, if_neg fun h => hnc ((hmem c).1 h), h₂.other c hcs]

end Interpose

/-! ## The cases of `force_to_leaf` -/

section Cases

variable (ht : tree.Valid) {x : Cell 24} (hleaf : tree.isLeaf (ofCell x) = some false)
include ht hleaf

/-- Under a leaf `s` above `x`, `force_to_leaf` splits `s` down to the bits of `x`. -/
theorem forceToLeaf_of_leaf_above {s : Cell 24}
    (hbr : tree.getBranchOrLeaf (ofCell x) = some (ofCell s)) (hs : IsLeaf tree.view s)
    (hsx : s.Above x) (h1 : s.bits < x.bits) :
    ∃ tree', tree.forceToLeaf (ofCell x) = some (true, tree') ∧ tree'.Valid ∧
      ∀ l, IsLeaf tree'.view l ↔ IsLeaf tree.view l ∧ l ≠ s ∨ s.Above l ∧ l.bits = x.bits := by
  have hsp : s.bits + (x.bits - s.bits) = x.bits := by omega
  obtain ⟨tree', hsplit, ht', hl'⟩ :=
    split_spec ht hs (b := x.bits - s.bits) (by omega) (by have := x.bits_le; omega) true
  rw [hsp] at hl'
  obtain ⟨b, hb, hiff⟩ := isLeaf_spec ht' x
  obtain rfl : b = true := hiff.2 ((hl' x).2 (.inr ⟨hsx, rfl⟩))
  refine ⟨tree', ?_, ht', hl'⟩
  rw [forceToLeaf, hleaf, Option.bind_eq_bind, Option.bind_some, if_neg Bool.false_ne_true, hbr,
    Option.bind_eq_bind, Option.bind_some, if_neg (not_not.2 ((bits_le_ofCell_iff s x).2 hsx.1)),
    if_pos ((bits_lt_ofCell_iff s x).2 h1)]
  simp only [bits_ofCell, getSplit_ofCell]
  rw [if_pos hs.2, hsplit, Option.bind_eq_bind, Option.bind_some, hb, Option.bind_some]
  rfl

/-- Under a split frag `s` whose split lies below `x`, `force_to_leaf` puts in an intermediate
split down to the bits of `x` and merges all under `x`. -/
theorem forceToLeaf_of_interpose {s : Cell 24}
    (hbr : tree.getBranchOrLeaf (ofCell x) = some (ofCell s)) (hs : Reach tree.view root s)
    (hsx : s.Above x) (h1 : s.bits < x.bits) (hpos : 0 < tree.view s)
    (h2 : x.bits < s.bits + tree.view s) :
    ∃ tree', tree.forceToLeaf (ofCell x) = some (true, tree') ∧ tree'.Valid ∧
      ∀ l, IsLeaf tree'.view l ↔ IsLeaf tree.view l ∧ ¬ x.Above l ∨ l = x := by
  have h0 : 0 < x.bits - s.bits := by omega
  have hlt : x.bits - s.bits < tree.view s := by omega
  have hsp : s.bits + (x.bits - s.bits) ≤ 24 := by
    have := x.bits_le
    omega
  have hi := interposesAt_foldl_setSplit ht h0 hlt
  have hk : (((ofCell s).split (x.bits - s.bits)).foldl
      (fun t p => t.setSplit p (tree.view s - (x.bits - s.bits)))
      ((tree.eraseSplit (ofCell s)).setSplit (ofCell s) (x.bits - s.bits))).Keyed := by
    refine ((ht.toKeyed.eraseSplit _).setSplit (canonical_ofCell s) h0).foldl_setSplit
      (fun f hf => ?_) (by omega)
    rw [split_ofCell s hsp] at hf
    obtain ⟨c, -, rfl⟩ := List.mem_map.1 hf
    exact canonical_ofCell c
  obtain ⟨tree', hh, ht', hl'⟩ := hoover_spec hk (ht.isTree.interposeAt hi hs h0 hlt)
    (hi.reach_child hs h0 hsx (by omega))
  refine ⟨tree', ?_, ht', fun l => by rw [hl', isLeaf_interposeAt_iff hi ht.isTree hs h0 hlt]⟩
  rw [forceToLeaf, hleaf, Option.bind_eq_bind, Option.bind_some, if_neg Bool.false_ne_true, hbr,
    Option.bind_eq_bind, Option.bind_some, if_neg (not_not.2 ((bits_le_ofCell_iff s x).2 hsx.1)),
    if_pos ((bits_lt_ofCell_iff s x).2 h1)]
  simp only [bits_ofCell, getSplit_ofCell]
  rw [if_neg (by omega), if_neg (not_not.2 hlt), merge_eq_eraseSplit ht.isTree.bound hpos,
    Option.bind_eq_bind, Option.bind_some, split_eraseSplit_eq ht hs, Option.bind_some,
    foldlM_interpose_eq ht hs h0 hlt, Option.bind_some]
  exact hh

/-- At `x` itself, split, `force_to_leaf` merges all under `x`. -/
theorem forceToLeaf_of_split (hbr : tree.getBranchOrLeaf (ofCell x) = some (ofCell x))
    (hx : Reach tree.view root x) :
    ∃ tree', tree.forceToLeaf (ofCell x) = some (true, tree') ∧ tree'.Valid ∧
      ∀ l, IsLeaf tree'.view l ↔ IsLeaf tree.view l ∧ ¬ x.Above l ∨ l = x := by
  obtain ⟨tree', hh, ht', hl'⟩ := hoover_spec ht.toKeyed ht.isTree hx
  refine ⟨tree', ?_, ht', hl'⟩
  rw [forceToLeaf, hleaf, Option.bind_eq_bind, Option.bind_some, if_neg Bool.false_ne_true, hbr,
    Option.bind_eq_bind, Option.bind_some, if_neg (not_not.2 ((bits_le_ofCell_iff x x).2 le_rfl)),
    if_neg fun h => lt_irrefl x.bits ((bits_lt_ofCell_iff x x).1 h)]
  exact hh

end Cases

/-- `force_to_leaf(x)` on a valid fragtree returns a valid fragtree in which `x` is a leaf, and
tells whether it changed anything: it did exactly when `x` was not a leaf, and otherwise the
fragtree is the same. The leaves change only where `x` is: those apart from `x` stay, and every
other new leaf is apart from `x` and was a leaf, or lies in the leaf that held `x`. -/
theorem forceToLeaf_spec (ht : tree.Valid) (x : Cell 24) :
    ∃ changed tree', tree.forceToLeaf (ofCell x) = some (changed, tree') ∧ tree'.Valid ∧
      (changed = true ↔ ¬ IsLeaf tree.view x) ∧ (changed = false → tree' = tree) ∧
      LeafAt tree.view tree'.view x := by
  obtain ⟨b, hb, hiff⟩ := isLeaf_spec ht x
  cases b with
  | true =>
    have hx := hiff.1 rfl
    refine ⟨false, tree, ?_, ht, iff_of_false Bool.false_ne_true (not_not.2 hx), fun _ => rfl,
      LeafAt.refl hx⟩
    rw [forceToLeaf, hb, Option.bind_eq_bind, Option.bind_some, if_pos rfl]
  | false =>
    have hnx : ¬ IsLeaf tree.view x := fun h => Bool.false_ne_true (hiff.2 h)
    obtain ⟨s, hbr, hs, hsx, hlt⟩ :=
      getBranchOrLeaf_ofCell ht.isTree.bound x fun d _ hd => ht.isTree.reach d hd
    rcases lt_or_eq_of_le hsx.1 with h1 | h1
    · rcases Nat.eq_zero_or_pos (tree.view s) with h0 | hpos
      · obtain ⟨tree', hf, ht', hl'⟩ := forceToLeaf_of_leaf_above ht hb hbr ⟨hs, h0⟩ hsx h1
        exact ⟨true, tree', hf, ht', iff_of_true rfl hnx, Bool.noConfusion,
          LeafAt.of_split ⟨hs, h0⟩ hsx hl'⟩
      · obtain ⟨tree', hf, ht', hl'⟩ :=
          forceToLeaf_of_interpose ht hb hbr hs hsx h1 hpos (hlt hpos)
        exact ⟨true, tree', hf, ht', iff_of_true rfl hnx, Bool.noConfusion,
          LeafAt.of_collapse hs hpos hsx (hlt hpos) hl'⟩
    · obtain rfl : s = x := hsx.eq_of_bits_le h1.ge
      have hpos : 0 < tree.view s := Nat.pos_of_ne_zero fun h0 => hnx ⟨hs, h0⟩
      obtain ⟨tree', hf, ht', hl'⟩ := forceToLeaf_of_split ht hb hbr hs
      exact ⟨true, tree', hf, ht', iff_of_true rfl hnx, Bool.noConfusion,
        LeafAt.of_collapse hs hpos (Above.refl s) (by omega) hl'⟩

end FragtreeT

end Lunule.Frag
